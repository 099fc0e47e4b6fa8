import Beachedmesh.Sightings

/-!
# What becomes of a scheduled relay

A relay that has been scheduled waits under its key until one of two things ends
it: a copy that makes enough, or a `due` after its time. The record of a run tells
which; nothing else touches the entry, so each relay has one fate, and the counters
account for all of them.
-/
namespace Beachedmesh
open Machine

namespace FloodOp

/-- A copy of the key arrives. -/
def receives (key : Key) : FloodOp → Bool
  | .receive pkt _ _ _ => pkt.key = key
  | _ => false

end FloodOp

/-- One operation of a flooder with its answer. -/
abbrev FloodEntry := FloodOp × FloodOut

namespace FloodEntry

/-- A relay of the key is scheduled. -/
def starts (key : Key) : FloodEntry → Bool
  | (op, o) => op.receives key && decide (o = .verdict .scheduled)

/-- A relay of the key is cancelled, or handed out. -/
def ends (key : Key) : FloodEntry → Bool
  | (op, .verdict v) => op.receives key && decide (v = .cancelled)
  | (_, .handed relays) => relays.any fun q => decide (q.key = key)
  | (_, .announced) => false

end FloodEntry

/-- The copies of the key that arrive over a record. -/
def copiesIn (key : Key) (h : List FloodEntry) : ℕ := h.countP fun e => e.1.receives key

/-- What ends a relay of the key from here on was scheduled from here on. -/
def NothingLeft (key : Key) (h : List FloodEntry) : Prop :=
  ∀ before e after, h = before ++ e :: after → FloodEntry.ends key e = true →
    ∃ e' ∈ before, FloodEntry.starts key e' = true

inductive RelayFate where
  | waiting
  | cancelled
  | handedOut
  deriving DecidableEq

/-- What becomes, over the record `h` that leads to the flooder `f`, of the relay `p`
standing under the key. -/
def HasFate (key : Key) (threshold : ℕ) (p : Pending) (h : List FloodEntry) (f : Flooder) :
    RelayFate → Prop
  /- Still pending, having heard every copy since, and too few of them. -/
  | .waiting => (∀ e ∈ h, FloodEntry.ends key e = false) ∧
      f.pending.get? key = some { p with heard := p.heard + copiesIn key h } ∧
      p.heard + copiesIn key h < threshold
  /- Removed by the copy that makes enough, which answers so. -/
  | .cancelled => ∃ before op after, h = before ++ (op, .verdict .cancelled) :: after ∧
      (∀ e ∈ before, FloodEntry.ends key e = false) ∧ op.receives key = true ∧
      p.heard + copiesIn key before + 1 = threshold ∧ NothingLeft key after
  /- Handed out once, at its time or later, after too few copies. -/
  | .handedOut => ∃ before now relays after, h = before ++ (.due now, .handed relays) :: after ∧
      (∀ e ∈ before, FloodEntry.ends key e = false) ∧ p.sendAt ≤ now ∧
      relays.filter (fun q => decide (q.key = key)) = [p.packet] ∧
      p.heard + copiesIn key before < threshold ∧ NothingLeft key after

/-- The fate that the first entry to end a relay tells, if there is one. -/
def RelayFate.ToldBy : RelayFate → Option FloodEntry → Prop
  | .waiting, none => True
  | .cancelled, some (_, .verdict _) => True
  | .handedOut, some (_, .handed _) => True
  | _, _ => False

theorem HasFate.toldBy {key : Key} {threshold : ℕ} {p : Pending} {h : List FloodEntry} {f : Flooder}
    {c : RelayFate} (hc : HasFate key threshold p h f c) :
    c.ToldBy (h.find? (FloodEntry.ends key)) := by
  cases c with
  | waiting =>
    have hnone : h.find? (FloodEntry.ends key) = none :=
      List.find?_eq_none.mpr fun e he => by simp [hc.1 e he]
    rw [hnone]
    trivial
  | cancelled =>
    obtain ⟨before, op, after, rfl, hbefore, hop, -⟩ := hc
    have hsome : (before ++ (op, .verdict .cancelled) :: after).find? (FloodEntry.ends key) =
        some (op, .verdict .cancelled) :=
      List.find?_eq_some_iff_append.mpr ⟨by simp [FloodEntry.ends, hop], before, after, rfl,
        fun e he => by simp [hbefore e he]⟩
    rw [hsome]
    trivial
  | handedOut =>
    obtain ⟨before, now, relays, after, rfl, hbefore, -, hrelays, -⟩ := hc
    have hmem : p.packet ∈ relays.filter fun q => decide (q.key = key) := by
      rw [hrelays]
      exact List.mem_singleton_self _
    have hends : FloodEntry.ends key (.due now, .handed relays) = true :=
      List.any_eq_true.mpr ⟨p.packet, List.mem_filter.mp hmem⟩
    have hsome : (before ++ (.due now, .handed relays) :: after).find? (FloodEntry.ends key) =
        some (.due now, .handed relays) :=
      List.find?_eq_some_iff_append.mpr ⟨hends, before, after, rfl,
        fun e he => by simp [hbefore e he]⟩
    rw [hsome]
    trivial

/-- A relay has at most one fate: the first entry that ends it tells which. -/
theorem HasFate.unique {key : Key} {threshold : ℕ} {p : Pending} {h : List FloodEntry} {f : Flooder}
    {a b : RelayFate} (ha : HasFate key threshold p h f a) (hb : HasFate key threshold p h f b) :
    a = b := by
  have ha' := ha.toldBy
  have hb' := hb.toldBy
  rcases hf : h.find? (FloodEntry.ends key) with _ | ⟨op, _ | _ | _⟩ <;>
    rw [hf] at ha' hb' <;> cases a <;> cases b <;> first | rfl | exact ha'.elim | exact hb'.elim

namespace Flooder

variable {own : NodeId} {f f' : Flooder} {key : Key} {p : Pending}

/-- A reception of another key leaves the entry alone. -/
theorem get?_pending_onReceive_of_ne {pkt : Packet} {rssi : Option ℤ} {clk : ReceiveClock}
    {draw : ℚ} {v : Verdict} (h : f.onReceive pkt rssi clk draw = (v, f')) (hne : key ≠ pkt.key) :
    f'.pending.get? key = f.pending.get? key := by
  cases onReceive_cases h with
  | own _ => simp [hne]
  | cancelled q _ _ _ => simp [hne]
  | counted q _ _ _ => simp [hne]
  | duplicate _ _ _ => rfl
  | noHops _ _ _ _ => rfl
  | scheduled relay _ _ _ _ => simp [hne]

/-- Of one key, `due` hands out the relay that stands under it. -/
theorem Keyed.filter_due (hk : f.Keyed own) (hp : f.pending.get? key = some p) {now : ℚ}
    (hdue : p.sendAt ≤ now) :
    (f.due now).1.filter (fun q => decide (q.key = key)) = [p.packet] := by
  have hmem : (key, p) ∈ f.pending.entries.filter fun e => decide (e.2.sendAt ≤ now) :=
    List.mem_filter.mpr ⟨OrderedDict.get?_eq_some_iff.mp hp, by simpa using hdue⟩
  have hnd : (f.pending.entries.filter fun e => decide (e.2.sendAt ≤ now)).Nodup :=
    (List.Nodup.of_map _ f.pending.nodup).filter _
  have hone : (f.pending.entries.filter fun e => decide (e.2.sendAt ≤ now)).filter
      (fun e => decide (e.2.packet.key = key)) = [(key, p)] := by
    have hcongr := List.filter_congr (p := fun e : Key × Pending => decide (e.2.packet.key = key))
      (q := (· == (key, p)))
      (l := f.pending.entries.filter fun e => decide (e.2.sendAt ≤ now)) fun e he => by
        have hget : f.pending.get? e.1 = some e.2 :=
          OrderedDict.get?_eq_some_iff.mpr (List.mem_of_mem_filter he)
        rw [hk.key_eq e.1 e.2 hget]
        by_cases hek : e.1 = key
        · rw [OrderedDict.eq_of_mem_entries hp (List.mem_of_mem_filter he) hek]
          simp
        · have hne : e ≠ (key, p) := fun h => hek (congrArg Prod.fst h)
          simp [hek, hne]
    rw [hcongr, List.filter_beq, List.count_eq_one_of_mem hnd hmem, List.replicate_one]
  simp only [due, List.filter_map, Function.comp_def, hone, List.map_cons, List.map_nil]

/-- It hands out nothing else of that key. -/
theorem Keyed.any_due (hk : f.Keyed own) {now : ℚ} :
    (f.due now).1.any (fun q => decide (q.key = key)) = true ↔
      ∃ q, f.pending.get? key = some q ∧ q.sendAt ≤ now := by
  simp only [List.any_eq_true, mem_due_iff, decide_eq_true_eq]
  constructor
  · rintro ⟨_, ⟨k, q, hq, hdue, rfl⟩, hkey⟩
    exact ⟨q, hkey ▸ hk.key_eq k q hq ▸ hq, hdue⟩
  · rintro ⟨q, hq, hdue⟩
    exact ⟨q.packet, ⟨key, q, hq, hdue, rfl⟩, hk.key_eq key q hq⟩

theorem threshold_step {op : FloodOp} {o : FloodOut} (hx : f.step own op = some (f', o)) :
    f'.threshold = f.threshold := by
  rw [← @threshold_after own f op]
  cases op with
  | _ =>
    obtain ⟨rfl, -⟩ := Prod.mk.inj (Option.some.inj hx)
    rfl

/-- What one operation does to the relay under a key. -/
inductive Served (key : Key) (threshold : ℕ) (p : Pending) :
    FloodOp → FloodOut → Option Pending → Prop
  | counted (op : FloodOp) (v : Verdict) : op.receives key = true → v ≠ .cancelled →
      p.heard + 1 < threshold →
      Served key threshold p op (.verdict v) (some { p with heard := p.heard + 1 })
  | cancelled (op : FloodOp) : op.receives key = true → threshold ≤ p.heard + 1 →
      Served key threshold p op (.verdict .cancelled) none
  | handedOut (now : ℚ) (relays : List Packet) : p.sendAt ≤ now →
      relays.filter (fun q => decide (q.key = key)) = [p.packet] →
      Served key threshold p (.due now) (.handed relays) none
  | idle (op : FloodOp) (o : FloodOut) : op.receives key = false →
      FloodEntry.ends key (op, o) = false → Served key threshold p op o (some p)

theorem Keyed.served (hk : f.Keyed own) (hp : f.pending.get? key = some p) {op : FloodOp}
    {o : FloodOut} (hx : f.step own op = some (f', o)) :
    Served key f.threshold p op o (f'.pending.get? key) := by
  cases op with
  | receive pkt rssi clk draw =>
    obtain ⟨v, hrecv, rfl⟩ := step_receive_iff.mp hx
    by_cases hkey : pkt.key = key
    · subst hkey
      have hop : (FloodOp.receive pkt rssi clk draw).receives pkt.key = true := by
        simp [FloodOp.receives]
      cases onReceive_cases hrecv with
      | own hown =>
        exact absurd (Option.some.inj (hown.symm.trans hk.own_eq)) (hk.foreign _ p hp)
      | cancelled q _ hq hthr =>
        obtain rfl := Option.some.inj (hp.symm.trans hq)
        rw [OrderedDict.get?_erase, if_pos rfl]
        exact .cancelled _ hop hthr
      | counted q _ hq hlt =>
        obtain rfl := Option.some.inj (hp.symm.trans hq)
        rw [OrderedDict.get?_insert, if_pos rfl]
        exact .counted _ _ hop (by decide) hlt
      | duplicate _ hnone _ => cases hnone.symm.trans hp
      | noHops _ hnone _ _ => cases hnone.symm.trans hp
      | scheduled relay _ hnone _ _ => cases hnone.symm.trans hp
    · have hop : (FloodOp.receive pkt rssi clk draw).receives key = false := by
        simp [FloodOp.receives, hkey]
      rw [get?_pending_onReceive_of_ne hrecv (Ne.symm hkey), hp]
      exact .idle _ _ hop (by simp [FloodEntry.ends, hop])
  | due now =>
    obtain ⟨rfl, rfl⟩ := Prod.mk.inj (Option.some.inj hx)
    rw [get?_pending_due, hp]
    by_cases hdue : p.sendAt ≤ now
    · rw [Option.filter_some, if_neg (by simpa using hdue)]
      exact .handedOut now _ hdue (hk.filter_due hp hdue)
    · rw [Option.filter_some, if_pos (by simpa using hdue)]
      refine .idle _ _ rfl ?_
      rw [← Bool.not_eq_true, FloodEntry.ends, hk.any_due]
      rintro ⟨q, hq, hdue'⟩
      obtain rfl := Option.some.inj (hp.symm.trans hq)
      exact hdue hdue'
  | announce packetId now =>
    obtain ⟨rfl, rfl⟩ := Prod.mk.inj (Option.some.inj hx)
    show Served key f.threshold p _ _ (f.pending.get? key)
    rw [hp]
    exact .idle _ _ rfl rfl

/-- Under a free key an operation ends nothing, and fills it only by scheduling. -/
theorem Keyed.free (hk : f.Keyed own) (hp : f.pending.get? key = none) {op : FloodOp}
    {o : FloodOut} (hx : f.step own op = some (f', o)) :
    FloodEntry.ends key (op, o) = false ∧
      (FloodEntry.starts key (op, o) = true ∨ f'.pending.get? key = none) := by
  cases op with
  | receive pkt rssi clk draw =>
    obtain ⟨v, hrecv, rfl⟩ := step_receive_iff.mp hx
    by_cases hkey : pkt.key = key
    · subst hkey
      cases onReceive_cases hrecv with
      | own _ => exact ⟨by simp [FloodEntry.ends], Or.inr (by simp)⟩
      | cancelled q _ hq _ => cases hp.symm.trans hq
      | counted q _ hq _ => cases hp.symm.trans hq
      | duplicate _ _ _ => exact ⟨by simp [FloodEntry.ends], Or.inr hp⟩
      | noHops _ _ _ _ => exact ⟨by simp [FloodEntry.ends], Or.inr hp⟩
      | scheduled relay _ _ _ _ =>
        exact ⟨by simp [FloodEntry.ends], Or.inl (by simp [FloodEntry.starts, FloodOp.receives])⟩
    · refine ⟨by simp [FloodEntry.ends, FloodOp.receives, hkey], Or.inr ?_⟩
      rw [get?_pending_onReceive_of_ne hrecv (Ne.symm hkey), hp]
  | due now =>
    obtain ⟨rfl, rfl⟩ := Prod.mk.inj (Option.some.inj hx)
    refine ⟨?_, Or.inr (by rw [get?_pending_due, hp]; rfl)⟩
    rw [← Bool.not_eq_true, FloodEntry.ends, hk.any_due, hp]
    simp
  | announce packetId now =>
    obtain ⟨rfl, rfl⟩ := Prod.mk.inj (Option.some.inj hx)
    exact ⟨rfl, Or.inr hp⟩

theorem Keyed.nothingLeft (hk : f.Keyed own) (hp : f.pending.get? key = none)
    {h : List FloodEntry} (hx : Records (Flooder.step own) f h f') : NothingLeft key h := by
  induction h generalizing f with
  | nil => simp [NothingLeft]
  | cons e h ih =>
    obtain ⟨f₁, h₁, h₂⟩ := records_cons_iff.mp hx
    obtain ⟨hends, hnext⟩ := hk.free hp h₁
    rintro (_ | ⟨e', before⟩) e'' after heq hend
    · obtain ⟨rfl, -⟩ := List.cons.inj heq
      cases hends.symm.trans hend
    · obtain ⟨rfl, htail⟩ := List.cons.inj heq
      rcases hnext with hstart | hnone
      · exact ⟨e, by simp, hstart⟩
      · obtain ⟨e₀, he₀, hs⟩ := ih (hk.step h₁) hnone h₂ before e'' after htail hend
        exact ⟨e₀, by simp [he₀], hs⟩

/-- An entry that does not end the relay is put before the record of its fate. -/
theorem HasFate.cons {threshold : ℕ} {p q : Pending} {h : List FloodEntry} {e : FloodEntry}
    {fate : RelayFate} (hq : HasFate key threshold q h f fate)
    (hends : FloodEntry.ends key e = false)
    (heq : q = { p with heard := p.heard + copiesIn key [e] }) :
    HasFate key threshold p (e :: h) f fate := by
  have hcount (l : List FloodEntry) :
      q.heard + copiesIn key l = p.heard + copiesIn key (e :: l) := by
    have hcons : copiesIn key (e :: l) = copiesIn key [e] + copiesIn key l := by
      rw [← List.singleton_append]
      exact List.countP_append
    rw [heq, hcons, Nat.add_assoc]
  have hbefore {l : List FloodEntry} (hl : ∀ e' ∈ l, FloodEntry.ends key e' = false) :
      ∀ e' ∈ e :: l, FloodEntry.ends key e' = false := by
    intro e' he'
    rcases List.mem_cons.mp he' with rfl | he'
    · exact hends
    · exact hl e' he'
  cases fate with
  | waiting =>
    obtain ⟨hnone, hp, hlt⟩ := hq
    refine ⟨hbefore hnone, ?_, hcount h ▸ hlt⟩
    rw [hp, ← hcount h, heq]
  | cancelled =>
    obtain ⟨before, op, after, rfl, hb, hop, hthr, hleft⟩ := hq
    exact ⟨e :: before, op, after, rfl, hbefore hb, hop, hcount before ▸ hthr, hleft⟩
  | handedOut =>
    obtain ⟨before, now, relays, after, rfl, hb, hdue, hrelays, hlt, hleft⟩ := hq
    refine ⟨e :: before, now, relays, after, rfl, hbefore hb, ?_, ?_, hcount before ▸ hlt, hleft⟩
    · rw [heq] at hdue
      exact hdue
    · rw [heq] at hrelays
      exact hrelays

/-- A pending relay that has not been heard too often has a fate. -/
theorem Keyed.exists_fate (hk : f.Keyed own) (hp : f.pending.get? key = some p)
    (hlt : p.heard < f.threshold) {h : List FloodEntry}
    (hx : Records (Flooder.step own) f h f') : ∃ fate, HasFate key f.threshold p h f' fate := by
  induction h generalizing f p with
  | nil =>
    obtain rfl := records_nil_iff.mp hx
    exact ⟨.waiting, by simp, hp, hlt⟩
  | cons e h ih =>
    obtain ⟨f₁, h₁, h₂⟩ := records_cons_iff.mp hx
    obtain ⟨op, o⟩ := e
    have hthr : f₁.threshold = f.threshold := threshold_step h₁
    generalize hq : f₁.pending.get? key = q
    have hserved := hq ▸ hk.served hp h₁
    cases hserved with
    | counted op v hop hv hlt' =>
      obtain ⟨fate, hf⟩ := ih (hk.step h₁) hq (hthr.symm ▸ hlt') h₂
      exact ⟨fate,
        HasFate.cons (hthr ▸ hf) (by simp [FloodEntry.ends, hv]) (by simp [copiesIn, hop])⟩
    | cancelled op hop hthr' =>
      exact ⟨.cancelled, [], op, h, rfl, by simp, hop, by simp [copiesIn]; omega,
        (hk.step h₁).nothingLeft hq h₂⟩
    | handedOut now relays hdue hrelays =>
      exact ⟨.handedOut, [], now, relays, h, rfl, by simp, hdue, hrelays, hlt,
        (hk.step h₁).nothingLeft hq h₂⟩
    | idle op o hop hends =>
      obtain ⟨fate, hf⟩ := ih (hk.step h₁) hq (hthr.symm ▸ hlt) h₂
      exact ⟨fate, HasFate.cons (hthr ▸ hf) hends (by simp [copiesIn, hop])⟩

/-! ### The counters -/

/-- The relays that the counters and the pending table account for. -/
def accounted (f : Flooder) : ℕ := f.stats.relayed + f.stats.cancelled + f.pending.size

/-- Every operation accounts for the relay it schedules, and for no other. -/
theorem Keyed.accounted_step (hk : f.Keyed own) {op : FloodOp} {o : FloodOut}
    (hx : f.step own op = some (f', o)) :
    f'.accounted = f.accounted + if o = .verdict .scheduled then 1 else 0 := by
  cases op with
  | receive pkt rssi clk draw =>
    obtain ⟨v, hrecv, rfl⟩ := step_receive_iff.mp hx
    have hmem {q : Pending} (hq : f.pending.get? pkt.key = some q) : pkt.key ∈ f.pending.keys :=
      OrderedDict.mem_keys_iff.mpr ⟨q, hq⟩
    cases onReceive_cases hrecv with
    | own hown =>
      have hnot : pkt.key ∉ f.pending.keys := fun hkey => by
        obtain ⟨q, hq⟩ := OrderedDict.mem_keys_iff.mp hkey
        exact hk.foreign _ q hq (Option.some.inj (hown.symm.trans hk.own_eq))
      simp [accounted, OrderedDict.erase_eq_self_iff.mpr hnot]
    | cancelled q _ hq _ =>
      have hsize := OrderedDict.size_erase_add_one (hmem hq)
      simp only [accounted, FloodOut.verdict.injEq, reduceCtorEq, if_false]
      omega
    | counted q _ hq _ => simp [accounted, OrderedDict.size_insert_of_mem _ (hmem hq)]
    | duplicate _ _ _ => simp [accounted]
    | noHops _ _ _ _ => simp [accounted]
    | scheduled relay _ hnone _ _ =>
      have hnot : pkt.key ∉ f.pending.keys := OrderedDict.get?_eq_none_iff.mp hnone
      simp [accounted, OrderedDict.size_insert_of_not_mem _ hnot, Nat.add_assoc]
  | due now =>
    obtain ⟨rfl, rfl⟩ := Prod.mk.inj (Option.some.inj hx)
    have hsplit := List.length_eq_length_filter_add (l := f.pending.entries)
      fun e => decide (e.2.sendAt ≤ now)
    have hrest : (f.pending.entries.filter fun e => !decide (e.2.sendAt ≤ now)) =
        f.pending.entries.filter fun e => decide (¬ e.2.sendAt ≤ now) :=
      List.filter_congr fun e _ => (decide_not).symm
    rw [hrest] at hsplit
    simp only [accounted, due, OrderedDict.size, OrderedDict.filter, reduceCtorEq, if_false]
    omega
  | announce packetId now =>
    obtain ⟨rfl, rfl⟩ := Prod.mk.inj (Option.some.inj hx)
    simp [accounted, insertSeen]

/-- Over a run the relays accounted for grow by those scheduled. -/
theorem Keyed.accounted_run (hk : f.Keyed own) {h : List FloodEntry}
    (hx : Records (Flooder.step own) f h f') :
    f'.accounted = f.accounted + h.countP fun e => e.2 = .verdict .scheduled := by
  induction h generalizing f with
  | nil =>
    obtain rfl := records_nil_iff.mp hx
    rfl
  | cons e h ih =>
    obtain ⟨f₁, h₁, h₂⟩ := records_cons_iff.mp hx
    rw [ih (hk.step h₁) h₂, hk.accounted_step h₁, List.countP_cons]
    simp only [decide_eq_true_eq]
    omega

/-- `due` hands out every relay whose time has come, and it waits no longer. -/
theorem due_complete (f : Flooder) {now : ℚ} (hp : f.pending.get? key = some p)
    (hdue : p.sendAt ≤ now) :
    p.packet ∈ (f.due now).1 ∧ (f.due now).2.pending.get? key = none := by
  refine ⟨mem_due_iff.mpr ⟨key, p, hp, hdue, rfl⟩, ?_⟩
  rw [get?_pending_due, hp, Option.filter_some, if_neg (by simpa using hdue)]

end Flooder

/-- From any flooder as it is constructed, over every run: a reception that answers
`scheduled` starts a relay, the copy with one hop fewer left, and from there on that relay
has exactly one fate. The relays scheduled are those handed out, cancelled and pending,
and `due` hands out every one whose time has come. -/
theorem one_fate {own : NodeId} {threshold : ℕ} (hthr : 1 ≤ threshold) {seen : Option SeenCache}
    {h : List FloodEntry} {f : Flooder}
    (hx : Records (Flooder.step own) (Flooder.new (some own) threshold seen) h f) :
    (∀ before pkt rssi clk draw after,
      h = before ++ (.receive pkt rssi clk draw, .verdict .scheduled) :: after →
      ∃ relay, pkt.relayed = some relay ∧ relay = { pkt with hopLimit := pkt.hopLimit - 1 } ∧
        ∃! fate, HasFate pkt.key threshold ⟨relay, clk.schedule + relayDelay rssi draw, 0⟩
          after f fate) ∧
    (h.countP fun e => e.2 = .verdict .scheduled) =
      f.stats.relayed + f.stats.cancelled + f.pending.size ∧
    ∀ now key p, f.pending.get? key = some p → p.sendAt ≤ now →
      p.packet ∈ (f.due now).1 ∧ (f.due now).2.pending.get? key = none := by
  have hkeyed := Flooder.keyed_new own threshold seen
  refine ⟨?_, ?_, fun now key p hp hdue => f.due_complete hp hdue⟩
  · rintro before pkt rssi clk draw after rfl
    obtain ⟨f₁, h₁, h₂⟩ := records_append_iff.mp hx
    obtain ⟨f₂, hrecv, h₃⟩ := records_cons_iff.mp h₂
    have hkeyed₁ : f₁.Keyed own := h₁.invariant (fun hs hstep => Flooder.Keyed.step hs hstep) hkeyed
    have hthr₁ : f₁.threshold = threshold :=
      h₁.invariant (fun {s i s' o} (hs : s.threshold = threshold) hstep =>
        (Flooder.threshold_step hstep).trans hs) rfl
    have hkeyed₂ := hkeyed₁.step hrecv
    have hthr₂ := (Flooder.threshold_step hrecv).trans hthr₁
    obtain ⟨v, hr, hv⟩ := Flooder.step_receive_iff.mp hrecv
    obtain rfl := FloodOut.verdict.inj hv
    cases Flooder.onReceive_cases hr with
    | scheduled relay _ _ _ hrelay =>
      have heq : relay = { pkt with hopLimit := pkt.hopLimit - 1 } := by
        rw [Packet.relayed] at hrelay
        split_ifs at hrelay
        exact (Option.some.inj hrelay).symm
      have hp := (OrderedDict.get?_insert f₁.pending pkt.key pkt.key
        ⟨relay, clk.schedule + relayDelay rssi draw, 0⟩).trans (if_pos rfl)
      obtain ⟨fate, hf⟩ := hkeyed₂.exists_fate hp (hthr₂ ▸ hthr) h₃
      rw [hthr₂] at hf
      exact ⟨relay, hrelay, heq, fate, hf, fun fate' hf' => hf'.unique hf⟩
  · have hrun := hkeyed.accounted_run hx
    have hzero : (Flooder.new (some own) threshold seen).accounted = 0 := rfl
    rw [hzero, Nat.zero_add] at hrun
    exact hrun.symm

def relayedPacket (src : UInt8) : Packet :=
  ⟨nodeIdOf src, broadcast, typeAnnounce, flagNoAck, 3, packetIdOf 7, [9], version⟩

/-- Of the relays for the nodes 1, 2 and 3 the second copy cancels the first, `due` hands
out the second, and the third still waits. -/
def threeFates : List FloodEntry :=
  [(.receive (relayedPacket 1) none ⟨0, 0, 0⟩ 0, .verdict .scheduled),
    (.receive (relayedPacket 2) none ⟨1, 1, 1⟩ 0, .verdict .scheduled),
    (.receive (relayedPacket 1) none ⟨1, 1, 1⟩ 0, .verdict .cancelled),
    (.due 2, .handed [{ relayedPacket 2 with hopLimit := 2 }]),
    (.receive (relayedPacket 3) none ⟨3, 3, 3⟩ 0, .verdict .scheduled)]

theorem one_fate_threeFates : ∃ f,
    Records (Flooder.step (nodeIdOf 9)) (Flooder.new (some (nodeIdOf 9)) 1 none) threeFates f ∧
    3 = f.stats.relayed + f.stats.cancelled + f.pending.size ∧
    ∃ relay, (relayedPacket 1).relayed = some relay ∧
      ∃! fate, HasFate (relayedPacket 1).key 1 ⟨relay, 0 + relayDelay none 0, 0⟩ threeFates.tail f
        fate := by
  have hrun : (exec (Flooder.step (nodeIdOf 9)) (Flooder.new (some (nodeIdOf 9)) 1 none)
      (threeFates.map Prod.fst)).map Prod.snd = some (threeFates.map Prod.snd) := by
    decide +kernel
  obtain ⟨⟨f, os⟩, hx, hos⟩ := Option.map_eq_some_iff.mp hrun
  have hrec : Records (Flooder.step (nodeIdOf 9)) (Flooder.new (some (nodeIdOf 9)) 1 none)
      threeFates f := by rw [Records, hx, ← hos]
  obtain ⟨hfates, hcount, -⟩ := one_fate le_rfl hrec
  obtain ⟨relay, hrelay, -, hfate⟩ := hfates [] _ _ _ _ _ rfl
  exact ⟨f, hrec, hcount, relay, hrelay, hfate⟩

end Beachedmesh
