import Beachedmesh.Ageing
import Beachedmesh.Provenance

/-!
# Restarts

A process leaves the rows of its database behind. One that is stopped writes its buffer out
first; one that is killed loses the buffer, the hot table and the settles. The next process
opens the rows and warms its hot table from them.
-/
namespace Beachedmesh
open Machine

/-- What happens to the routes of a node through the lives of its process. -/
inductive LifeOp where
  | call (op : RouteOp)
  | restart (clean : Bool) (closed opened : ℚ)
  deriving DecidableEq

namespace LifeOp

/-- Every reading of the clock, across the processes. -/
def clock : LifeOp → List ℚ
  | .call op => op.clock
  | .restart _ closed opened => [closed, opened]

def Prompt (δ : ℚ) : LifeOp → Prop
  | .call op => op.Prompt δ
  | .restart _ _ _ => True

def isWarm : LifeOp → Bool
  | .call op => op.isWarm
  | .restart _ _ _ => false

end LifeOp

namespace RouteTable

/-- The table of the next process, over the rows on disk. -/
def reopen (t : RouteTable) (mono : ℚ) : RouteTable :=
  .new t.ownId t.ttl (t.cold.map fun s => ColdStore.new s.rows mono) t.maxHot

/-- The table that a process leaves behind: `close` has written it out, or nothing has. -/
def left (t : RouteTable) (clean : Bool) (closed : ℚ) : RouteTable :=
  if clean then t.flush closed else t

/-- The end of one process and the start of the next one. -/
def restart (t : RouteTable) (clean : Bool) (closed opened : ℚ) : Option RouteTable :=
  ((t.left clean closed).reopen opened).warm none

def live (t : RouteTable) : LifeOp → Option (RouteTable × RouteOut)
  | .call op => t.step op
  | .restart clean closed opened => (t.restart clean closed opened).map fun t' => (t', .done)

variable {t t' : RouteTable} {T T' δ τ : ℚ} {n : NodeId}

/-! ### What holds of every record of a table -/

section Records

variable {B : NodeId → Hearing → Prop} {R : NodeId → Row → Prop}

/-- `B` holds of what the table has buffered and `R` of what it has on disk. -/
def Recorded (B : NodeId → Hearing → Prop) (R : NodeId → Row → Prop) (t : RouteTable) : Prop :=
  ∀ s, t.cold = some s → s.Records B R

theorem Recorded.congr (h : t.Recorded B R) (hcold : t'.cold = t.cold) : t'.Recorded B R :=
  fun s hs => h s (hcold ▸ hs)

theorem Recorded.mapCold (h : t.Recorded B R) {f : ColdStore → ColdStore}
    (hf : ∀ s, s.Records B R → (f s).Records B R) :
    Recorded B R { t with cold := t.cold.map f } := by
  intro s' hs'
  obtain ⟨s, hs, rfl⟩ := Option.map_eq_some_iff.mp hs'
  exact hf s (h s hs)

theorem Recorded.note (h : t.Recorded B R) (hm : ColdStore.Merging B R) {x : Hearing} (hx : B n x)
    (mono : ℚ) : (t.note n x mono).Recorded B R :=
  h.mapCold fun _ hs => hs.buffer hm hx mono

theorem Recorded.commit (h : t.Recorded B R) (hm : ColdStore.Merging B R) {c : Copy} {now mono : ℚ}
    (hc : ∀ e, pack c.nextHop c.hops (c.rssi.getD noRssi) (pyInt now) = some e →
      B c.nodeId (c.hearing now)) (hx : t.commit c now mono = some t') : t'.Recorded B R := by
  obtain ⟨e, he, rfl⟩ := commit_eq_some_iff.mp hx
  have hplace : (t.place c.nodeId e).Recorded B R := h
  exact hplace.note hm (hc e he) mono

theorem Recorded.learn (h : t.Recorded B R) (hm : ColdStore.Merging B R) {c : Copy} {now mono : ℚ}
    {v : LearnVerdict}
    (hc : ∀ e, pack c.nextHop c.hops (c.rssi.getD noRssi) (pyInt now) = some e →
      B c.nodeId (c.hearing now))
    (hheard : ∀ old, t.hot.get? c.nodeId = some old → B c.nodeId (old.heard c now))
    (hx : t.learn c now mono = some (v, t')) : t'.Recorded B R := by
  cases learn_cases hx with
  | self _ => exact h
  | committed v t' _ _ hcommit =>
    have hdrop : (t.dropPending c.nodeId).Recorded B R := h
    exact hdrop.commit hm hc hcommit
  | keptEqual old _ hold _ _ _ _ =>
    have hdrop : (t.dropPending c.nodeId).Recorded B R := h
    exact hdrop.note hm (hheard old hold) mono
  | settling old _ hold _ _ =>
    have hsharp : Recorded B R { t with pending := t.sharpened c now } := h
    exact hsharp.note hm (hheard old hold) mono
  | keptWorse old _ hold _ _ => exact h.note hm (hheard old hold) mono

theorem Recorded.tick (h : t.Recorded B R) (hm : ColdStore.Merging B R) {clk : TickClock}
    (hc : ∀ (c : Copy) e, pack c.nextHop c.hops (c.rssi.getD noRssi) (pyInt clk.wall) = some e →
      B c.nodeId (c.hearing clk.wall)) (hx : t.tick clk = some t') : t'.Recorded B R := by
  obtain ⟨u, hu, rfl⟩ := Option.map_eq_some_iff.mp hx
  have hsettled : u.Recorded B R := by
    refine foldlM_invariant (Recorded B R) (fun {u e u'} _ hu hone => ?_) h hu
    have hdrop : (u.dropPending e.1).Recorded B R := hu
    exact hdrop.commit hm (hc (e.2.copy e.1)) hone
  exact hsettled.mapCold fun s hs => hs.maybeFlush hm clk.check clk.done

/-- One operation, if `B` holds of all that it may write at one of its readings. -/
theorem Recorded.step (h : t.Recorded B R) (hm : ColdStore.Merging B R) {op : RouteOp}
    {o : RouteOut}
    (hc : ∀ (c : Copy) now e, now ∈ op.readings →
      pack c.nextHop c.hops (c.rssi.getD noRssi) (pyInt now) = some e → B c.nodeId (c.hearing now))
    (hheard : ∀ (c : Copy) now old, now ∈ op.readings → t.hot.get? c.nodeId = some old →
      B c.nodeId (old.heard c now)) (hx : t.step op = some (t', o)) : t'.Recorded B R := by
  cases step_cases hx with
  | @learn c now mono _ _ hl =>
    have hnow : now ∈ (RouteOp.learn c now mono).readings := List.mem_singleton_self now
    exact h.learn hm (fun e => hc c now e hnow) (fun old => hheard c now old hnow) hl
  | nextHop hl => exact h.congr (cold_nextHop hl)
  | @tick clk _ hl =>
    have hwall : clk.wall ∈ (RouteOp.tick clk).readings := List.mem_singleton_self clk.wall
    exact h.tick hm (fun c e => hc c clk.wall e hwall) hl
  | flush mono => exact h.mapCold fun s hs => hs.flush hm mono
  | expire now nowCold => exact h.mapCold fun s hs => hs.expire t.ttl nowCold
  | warm hl => exact h.congr (warm_rest hl).1

theorem Recorded.left (h : t.Recorded B R) (hm : ColdStore.Merging B R) (clean : Bool)
    (closed : ℚ) : (t.left clean closed).Recorded B R := by
  unfold RouteTable.left
  split_ifs
  · exact h.mapCold fun s hs => hs.flush hm closed
  · exact h

/-- The next process starts with an empty buffer. -/
theorem Recorded.reopen (h : t.Recorded B R) {B' : NodeId → Hearing → Prop} (mono : ℚ) :
    (t.reopen mono).Recorded B' R := by
  intro s' hs'
  obtain ⟨s, hs, rfl⟩ := Option.map_eq_some_iff.mp hs'
  refine ⟨fun n x hx => ?_, (h s hs).onDisk⟩
  cases hx

theorem Recorded.restart (h : t.Recorded B R) (hm : ColdStore.Merging B R)
    {B' : NodeId → Hearing → Prop} {clean : Bool} {closed opened : ℚ}
    (hx : t.restart clean closed opened = some t') : t'.Recorded B' R :=
  ((h.left hm clean closed).reopen opened).congr (warm_rest hx).1

end Records

/-! ### Records that fit, and records that are recent -/

/-- At time `T` every record fits and is not from the future, the rows under buffered
hearings too. -/
def Fitting (T : ℚ) : RouteTable → Prop :=
  Recorded (fun _ x => x.bearing.Fits T) fun _ r => r.bearing.Fits T

/-- Nothing that is buffered was heard at `τ` or before. -/
def Written (τ : ℚ) : RouteTable → Prop := Recorded (fun _ x => τ < x.lastSeen) fun _ _ => True

theorem merging_fits (T : ℚ) : ColdStore.Merging (fun _ x => x.bearing.Fits T)
    (fun _ r => r.bearing.Fits T) where
  merged := fun _ _ _ h _ => h
  upsert := by
    intro n x old h _
    cases old with
    | none => exact h
    | some r => exact h

theorem merging_late (τ : ℚ) : ColdStore.Merging (fun _ x => τ < x.lastSeen) (fun _ _ => True) where
  merged := fun _ _ _ h _ => h
  upsert := fun _ _ _ _ _ => trivial

theorem Fitting.mono (h : t.Fitting T) (hT : T ≤ T') : t.Fitting T' := fun s hs =>
  ⟨fun n x hx => ((h s hs).buffered n x hx).mono hT, fun n r hr => ((h s hs).onDisk n r hr).mono hT⟩

/-- A hearing that leaves a held route standing fits, for the route does. -/
theorem Agreeing.fits_heard (ha : t.Agreeing T) {now : ℚ} (hT : T ≤ now) {c : Copy} {old : Packed}
    (hold : t.hot.get? c.nodeId = some old) : (old.heard c now).bearing.Fits now := by
  obtain ⟨b, hb, hbacks⟩ := ha.held c.nodeId old hold
  have hle : pyInt b.lastSeen ≤ pyInt now := pyInt_mono ((ha.fits _ b hb).past.trans hT)
  have hseen := hbacks.le
  have hnonneg : 0 ≤ pyInt now := by omega
  exact ⟨old.hops_lt, old.rssi_ge, old.rssi_le, hnonneg, le_rfl⟩

theorem Fitting.step (h : t.Fitting T) (ha : t.Agreeing T) {op : RouteOp} {o : RouteOut}
    (hT : Ticks T T' op.readings) (hx : t.step op = some (t', o)) : t'.Fitting T' := by
  refine Recorded.step (h.mono hT.le) (merging_fits T') (fun c now e hnow he => ?_)
    (fun c now old hnow hold => ?_) hx
  · exact Bearing.fits_of_pack (b := (c.hearing now).bearing) he (hT.upper now hnow)
  · exact (ha.fits_heard (hT.lower now hnow) hold).mono (hT.upper now hnow)

theorem Written.step (h : t.Written τ) (hτ : τ < T) {op : RouteOp} {o : RouteOut}
    (hT : Ticks T T' op.readings) (hx : t.step op = some (t', o)) : t'.Written τ := by
  refine Recorded.step h (merging_late τ) (fun c now _ hnow _ => ?_) (fun c now old hnow _ => ?_) hx
  · exact hτ.trans_le (hT.lower now hnow)
  · exact hτ.trans_le (hT.lower now hnow)

/-- After a tick, what is buffered is hardly older than the flush interval. -/
theorem Dated.written_tick (h : t.Dated δ T) {clk : TickClock}
    (hop : clk.settled - clk.wall ≤ δ) (hclk : Ticks T T' (RouteOp.tick clk).clock)
    (hx : t.tick clk = some t') : t'.Written (clk.check - flushSeconds - δ) := by
  obtain ⟨u, hu, rfl⟩ := Option.map_eq_some_iff.mp hx
  have hsettled := hclk.lower clk.settled (by simp [RouteOp.clock])
  intro s' hs'
  obtain ⟨s, hs, rfl⟩ := Option.map_eq_some_iff.mp hs'
  refine ⟨fun n x hx => ?_, fun _ _ _ => trivial⟩
  exact ((h.settle hsettled hop hu) s hs).lt_of_maybeFlush hx

/-! ### One restart -/

theorem stored_reopen (t : RouteTable) (mono : ℚ) (n : NodeId) :
    (t.reopen mono).stored n = t.cold.bind fun s => (s.rows.get? n).map Row.bearing := by
  rw [reopen, stored, new]
  cases t.cold with
  | none => rfl
  | some s =>
    rw [Option.map_some, Option.bind_some, Option.bind_some, ColdStore.bearing?_eq]
    rfl

/-- A flush puts everything on disk that the store reports. -/
theorem stored_reopen_flush (t : RouteTable) (closed opened : ℚ) (n : NodeId) :
    ((t.flush closed).reopen opened).stored n = t.stored n := by
  rw [stored_reopen, ← stored_flush t closed n, stored, flush]
  cases t.cold with
  | none => rfl
  | some s =>
    simp only [Option.map_some, Option.bind_some, ColdStore.bearing?_eq, ColdStore.buf_flush,
      OrderedDict.get?_empty]

/-- Without a flush, what was heard long enough ago is on disk. -/
theorem Written.stored_reopen (h : t.Written τ) {opened : ℚ}
    (hold : ∀ b, t.stored n = some b → b.lastSeen ≤ τ) :
    (t.reopen opened).stored n = t.stored n := by
  rw [RouteTable.stored_reopen, stored]
  rw [stored] at hold
  cases hs : t.cold with
  | none => rfl
  | some s =>
    rw [hs] at hold
    simp only [Option.bind_some, ColdStore.bearing?_eq] at hold ⊢
    cases hx : s.buf.get? n with
    | none => rfl
    | some x =>
      have hlate := (h s hs).buffered n x hx
      have hearly : x.lastSeen ≤ τ := hold x.bearing (by rw [hx])
      exact absurd hlate (not_lt.mpr hearly)

theorem isSome_cold_left (t : RouteTable) (clean : Bool) (closed : ℚ) :
    (t.left clean closed).cold.isSome = t.cold.isSome := by
  unfold RouteTable.left
  split_ifs
  · rw [flush, Option.isSome_map]
  · rfl

/-- The next process finds a consistent table, at the time the last one has left. -/
theorem Fitting.agreeing_restart (h : t.Fitting T) (hcold : t.cold.isSome) {clean : Bool}
    {closed opened : ℚ} (hx : t.restart clean closed opened = some t') : t'.Agreeing T := by
  have hleft := Recorded.left h (merging_fits T) clean closed
  have hsome : (t.left clean closed).cold.isSome := by rwa [isSome_cold_left]
  obtain ⟨s, hs⟩ := Option.isSome_iff_exists.mp hsome
  have hopen : (t.left clean closed).reopen opened = .new (t.left clean closed).ownId
      (t.left clean closed).ttl (some (ColdStore.new s.rows opened))
      (t.left clean closed).maxHot := by
    rw [reopen, hs, Option.map_some]
  rw [restart, hopen] at hx
  refine ((agreeing_new (hleft s hs).onDisk).warm ⟨rfl, fun u hu => ?_⟩ hx).1
  obtain rfl := Option.some.inj hu
  rfl

/-- Warming changes no record. -/
theorem stored_restart {clean : Bool} {closed opened : ℚ}
    (hx : t.restart clean closed opened = some t') (n : NodeId) :
    t'.stored n = ((t.left clean closed).reopen opened).stored n := by
  rw [stored, (warm_rest hx).1, ← stored]

/-! ### Runs over many processes -/

/-- What holds at time `T` after the operations of `past`. -/
structure Enduring (δ T : ℚ) (past : List LifeOp) (t : RouteTable) : Prop where
  agreeing : t.Agreeing T
  fitting : t.Fitting T
  dated : t.Dated δ T
  ticked : ∀ clk, .call (.tick clk) ∈ past →
    clk.check ≤ T ∧ t.Written (clk.check - flushSeconds - δ)

theorem readings_sublist (op : RouteOp) : op.readings.Sublist op.clock := by
  cases op <;> simp [RouteOp.readings, RouteOp.clock]

theorem Enduring.call {past : List LifeOp} (h : t.Enduring δ T past) (hδ : 0 ≤ δ) {op : RouteOp}
    {o : RouteOut} (hwarm : op.isWarm = false) (hop : op.Prompt δ)
    (hns : ∀ now nowCold, op = .expire now nowCold → ¬ t.Straddles now nowCold)
    (hclk : Ticks T T' op.clock) (hx : t.step op = some (t', o)) :
    t'.Enduring δ T' (past ++ [.call op]) where
  agreeing := by
    refine h.agreeing.step (hclk.sublist (readings_sublist op)) hx (fun limit hlimit => ?_) hns
    rw [hlimit] at hwarm
    cases hwarm
  fitting := h.fitting.step h.agreeing (hclk.sublist (readings_sublist op)) hx
  dated := h.dated.step hδ hop hclk hx
  ticked := by
    have hpos : 0 < flushSeconds := by norm_num [flushSeconds]
    intro clk hmem
    rcases List.mem_append.mp hmem with hpast | hlast
    · obtain ⟨hle, hwritten⟩ := h.ticked clk hpast
      have hlate : clk.check - flushSeconds - δ < T := by linarith
      have hreadings : Ticks T T' op.readings := hclk.sublist (readings_sublist op)
      exact ⟨hle.trans hclk.le, hwritten.step hlate hreadings hx⟩
    · obtain rfl := LifeOp.call.inj (List.mem_singleton.mp hlast)
      refine ⟨hclk.upper clk.check (by simp [RouteOp.clock]), ?_⟩
      cases step_cases hx with
      | tick hu => exact h.dated.written_tick (hop clk rfl) hclk hu

theorem Enduring.restart {past : List LifeOp} (h : t.Enduring δ T past) {clean : Bool}
    {closed opened : ℚ} (hclk : Ticks T T' [closed, opened])
    (hx : t.restart clean closed opened = some t') :
    t'.Enduring δ T' (past ++ [.restart clean closed opened]) where
  agreeing := (h.fitting.agreeing_restart h.agreeing.attached hx).mono hclk.le
  fitting := Fitting.mono (Recorded.restart h.fitting (merging_fits T) hx) hclk.le
  dated := by
    intro s hs
    rw [(warm_rest hx).1] at hs
    obtain ⟨u, hu, rfl⟩ := Option.map_eq_some_iff.mp hs
    exact ColdStore.dated_new (hclk.upper opened (by simp))
  ticked := by
    intro clk hmem
    have hpast : .call (.tick clk) ∈ past := by simpa using hmem
    obtain ⟨hle, hwritten⟩ := h.ticked clk hpast
    exact ⟨hle.trans hclk.le, Recorded.restart hwritten (merging_late _) hx⟩

theorem Enduring.live {past : List LifeOp} (h : t.Enduring δ T past) (hδ : 0 ≤ δ) {op : LifeOp}
    {o : RouteOut} (hwarm : op.isWarm = false) (hop : op.Prompt δ)
    (hns : ∀ now nowCold, op = .call (.expire now nowCold) → ¬ t.Straddles now nowCold)
    (hclk : Ticks T T' op.clock) (hx : t.live op = some (t', o)) :
    t'.Enduring δ T' (past ++ [op]) := by
  cases op with
  | call op =>
    exact h.call hδ hwarm hop (fun now nowCold hop => hns now nowCold (congrArg _ hop)) hclk hx
  | restart clean closed opened =>
    obtain ⟨u, hu, he⟩ := Option.map_eq_some_iff.mp hx
    obtain ⟨rfl, -⟩ := Prod.mk.inj he
    exact h.restart hclk hu

theorem enduring_new {own : Option NodeId} {ttl mono₀ : ℚ} {maxHot : ℕ}
    {rows : OrderedDict NodeId Row} (hrows : ∀ n r, rows.get? n = some r → r.bearing.Fits T)
    (hmono : mono₀ ≤ T) :
    (new own ttl (some (ColdStore.new rows mono₀)) maxHot).Enduring δ T [] where
  agreeing := agreeing_new hrows
  fitting := by
    intro s hs
    obtain rfl := Option.some.inj hs
    refine ⟨fun n x hx => ?_, hrows⟩
    cases hx
  dated := by
    intro s hs
    obtain rfl := Option.some.inj hs
    exact ColdStore.dated_new hmono
  ticked := by simp

theorem enduring_exec (h : t.Enduring δ T []) (hδ : 0 ≤ δ) {ops : List LifeOp}
    (hwarm : ∀ op ∈ ops, op.isWarm = false) (hprompt : ∀ op ∈ ops, op.Prompt δ)
    (hclock : Clocked LifeOp.clock T ops) {os : List RouteOut}
    (hx : exec live t ops = some (t', os))
    (hns : EachStep live
      (fun t op => ∀ now nowCold, op = .call (.expire now nowCold) → ¬ t.Straddles now nowCold)
      t ops) : ∃ T', t'.Enduring δ T' ops := by
  -- the invariant says where the clock stands, so that the rest of the run is known
  have hinv := exec_prefix (fun past u => ∃ T', u.Enduring δ T' past ∧
    ∀ post, ops = past ++ post → Clocked LifeOp.clock T' post) ?_ ?_ (List.append_nil ops).symm hx
  · obtain ⟨T', hend, -⟩ := hinv
    exact ⟨T', hend⟩
  · refine ⟨T, h, fun post hpost => ?_⟩
    obtain rfl : ops = post := hpost
    exact hclock
  · rintro pre op post u os u' o hops hpre ⟨T₁, hu, hclk⟩ hstep
    obtain ⟨T₂, htick, hclk'⟩ := (hclk _ hops).cons
    have hmem : op ∈ ops := by rw [hops]; simp
    refine ⟨T₂, hu.live hδ (hwarm op hmem) (hprompt op hmem) (hns pre op post u os hops hpre) htick
      hstep, fun post' hpost' => ?_⟩
    rw [hops, List.append_assoc] at hpost'
    obtain rfl : post = post' := (List.cons.inj (List.append_cancel_left hpost')).2
    exact hclk'

/-- The same next hop before and after, for every node whose record is the same. -/
theorem Agreeing.nextHop_eq (h : t.Agreeing T) (h' : t'.Agreeing T') {a a' : Option Mac}
    {u u' : RouteTable} (hst : t'.stored n = t.stored n) (ha : t.nextHop n = some (a, u))
    (ha' : t'.nextHop n = some (a', u')) : a' = a := by
  rw [answer_eq (h'.held n) ha', answer_eq (h.held n) ha, hst]

end RouteTable

/-- Any run of a table through any number of processes, stopped or killed at any point, on
one clock, in which no `expire` straddles and no tick takes longer than `δ` to commit its
settles. The tiers are consistent throughout, and whatever happens next, the process after a
stop has the next hop of every node as it was, and the one after a kill that of every node
which was heard the flush interval and `δ` before some tick. -/
theorem restarts_keep_routes {own : Option NodeId} {ttl mono₀ T₀ δ : ℚ} {maxHot : ℕ}
    {rows : OrderedDict NodeId Row} (hrows : ∀ n r, rows.get? n = some r → r.bearing.Fits T₀)
    (hmono : mono₀ ≤ T₀) (hδ : 0 ≤ δ) {ops : List LifeOp}
    (hwarm : ∀ op ∈ ops, op.isWarm = false) (hprompt : ∀ op ∈ ops, op.Prompt δ)
    (hclock : Clocked LifeOp.clock T₀ ops) {t : RouteTable} {os : List RouteOut}
    (hx : exec RouteTable.live (.new own ttl (some (ColdStore.new rows mono₀)) maxHot) ops =
      some (t, os))
    (hns : EachStep RouteTable.live
      (fun t op => ∀ now nowCold, op = .call (.expire now nowCold) → ¬ t.Straddles now nowCold)
      (.new own ttl (some (ColdStore.new rows mono₀)) maxHot) ops) :
    t.Consistent ∧ ∀ clean closed opened t', t.restart clean closed opened = some t' →
      t'.Consistent ∧ ∀ n a u a' u', t.nextHop n = some (a, u) → t'.nextHop n = some (a', u') →
        (clean = true ∨ ∃ clk, .call (.tick clk) ∈ ops ∧
          ∀ r, t.recorded n = some r → r.lastSeen ≤ clk.check - flushSeconds - δ) → a' = a := by
  obtain ⟨T, hend⟩ := RouteTable.enduring_exec (RouteTable.enduring_new hrows hmono) hδ hwarm
    hprompt hclock hx hns
  refine ⟨hend.agreeing.consistent, fun clean closed opened t' hr => ?_⟩
  have hagree := hend.fitting.agreeing_restart hend.agreeing.attached hr
  refine ⟨hagree.consistent, fun n a u a' u' ha ha' hkept => ?_⟩
  refine hend.agreeing.nextHop_eq hagree ?_ ha ha'
  rw [RouteTable.stored_restart hr, RouteTable.left]
  split_ifs with hclean
  · exact RouteTable.stored_reopen_flush t closed opened n
  · obtain ⟨clk, hclk, hold⟩ := hkept.resolve_left hclean
    refine (hend.ticked clk hclk).2.stored_reopen fun b hb => ?_
    rw [RouteTable.stored_eq_map, Option.map_eq_some_iff] at hb
    obtain ⟨r, hr, rfl⟩ := hb
    exact hold r hr

/-- A start, an announce and a tick that writes it out, an announce that stays buffered, and
a kill. -/
def killedRun : List LifeOp :=
  [.restart true 0 0,
    .call (.learn ⟨nodeIdOf 1, macOf 1, 2, some (-60), none, none, ""⟩ 100 100),
    .call (.tick ⟨106, 106, 106, 106⟩), .call (.tick ⟨112, 112, 112, 112⟩),
    .call (.learn ⟨nodeIdOf 2, macOf 2, 0, none, none, none, ""⟩ 113 113)]

def killedStart : RouteTable := .new none defaultTtl (some (ColdStore.new OrderedDict.empty 0)) 1

/-- The node that was heard in time is found again, the other one is not. -/
theorem restarts_keep_routes_killedRun : ∃ t t' os a' u',
    exec RouteTable.live killedStart killedRun = some (t, os) ∧
    t.restart false 114 114 = some t' ∧ t'.nextHop (nodeIdOf 1) = some (a', u') ∧
    t'.recorded (nodeIdOf 2) = none ∧ a' = some (macOf 1) := by
  have hrun : (exec RouteTable.live killedStart killedRun).bind (fun r =>
      (r.1.restart false 114 114).bind fun t' => (r.1.nextHop (nodeIdOf 1)).bind fun x =>
        (t'.nextHop (nodeIdOf 1)).map fun y => decide (t'.recorded (nodeIdOf 2) = none ∧
          x.1 = some (macOf 1) ∧
          (r.1.recorded (nodeIdOf 1)).map Route.lastSeen = some 100)) = some true := by
    decide +kernel
  obtain ⟨⟨t, os⟩, hx, hrun⟩ := Option.bind_eq_some_iff.mp hrun
  obtain ⟨t', hr, hrun⟩ := Option.bind_eq_some_iff.mp hrun
  obtain ⟨⟨a, u⟩, ha, hrun⟩ := Option.bind_eq_some_iff.mp hrun
  obtain ⟨⟨a', u'⟩, ha', hrun⟩ := Option.map_eq_some_iff.mp hrun
  obtain ⟨hnone, hmac, hseen⟩ := of_decide_eq_true hrun
  refine ⟨t, t', os, a', u', hx, hr, ha', hnone, Eq.trans ?_ hmac⟩
  have hrows : ∀ n r, (OrderedDict.empty : OrderedDict NodeId Row).get? n = some r →
      r.bearing.Fits 0 := by
    intro n r hr
    cases hr
  have hns : EachStep RouteTable.live (fun t op =>
      ∀ now nowCold, op = .call (.expire now nowCold) → ¬ t.Straddles now nowCold)
      killedStart killedRun := by
    intro pre op post _ _ hpre _ now nowCold hop
    have hmem : op ∈ killedRun := by rw [hpre]; simp
    rw [hop] at hmem
    simp [killedRun] at hmem
  have hprompt : ∀ op ∈ killedRun, op.Prompt 0 := by
    intro op hop
    simp only [killedRun, List.mem_cons, List.not_mem_nil, or_false] at hop
    rcases hop with rfl | rfl | rfl | rfl | rfl
    · trivial
    all_goals
      intro clk hclk
      cases hclk <;> norm_num
  have hclock : Clocked LifeOp.clock 0 killedRun := by
    unfold Clocked
    decide +kernel
  have hkept : ∀ r, t.recorded (nodeIdOf 1) = some r → r.lastSeen ≤ 112 - flushSeconds - 0 := by
    intro r hr
    rw [hr, Option.map_some, Option.some.injEq] at hseen
    rw [hseen]
    norm_num [flushSeconds]
  exact ((restarts_keep_routes hrows le_rfl le_rfl (by decide) hprompt hclock hx hns).2 false 114
    114 t' hr).2 (nodeIdOf 1) a u a' u' ha ha'
    (Or.inr ⟨⟨112, 112, 112, 112⟩, by simp [killedRun], hkept⟩)

/-! ### The daemons of one database -/

/-- One life of the daemon: what it is started with, its run, and whether it is stopped. -/
structure Life where
  iface : String
  identity : Identity
  interval : ℚ
  name : String
  hopLimit : ℤ
  opened : ℚ
  mono : ℚ
  started : ℚ
  ops : List Node.Op
  clean : Bool
  closed : ℚ

/-- The rows that a life leaves behind, and what it did. -/
def Life.run (c : Crypto) (rows : OrderedDict NodeId Row) (l : Life) :
    Option (OrderedDict NodeId Row × List (List Event)) :=
  (exec (Node.step c) (Node.new l.iface l.identity l.interval l.name
      (some (ColdStore.new rows l.opened)) l.hopLimit l.mono l.started)
      (.warm none :: l.ops)).bind fun r =>
    (r.1.routes.left l.clean l.closed).cold.map fun s => (s.rows, r.2)

/-- Every row goes back to announces of its node that some life has verified. -/
def GenuineRows (c : Crypto) (ops : List Node.Op) (rows : OrderedDict NodeId Row) : Prop :=
  ∀ n r, rows.get? n = some r →
    Sourced (Node.KeysOf c ops n) (Node.NameOf c ops n) r.signPub r.encryptPub r.name

theorem GenuineRows.run {c : Crypto} {past : List Node.Op} {rows rows' : OrderedDict NodeId Row}
    (h : GenuineRows c past rows) {l : Life} {ess : List (List Event)}
    (hx : l.run c rows = some (rows', ess)) : GenuineRows c (past ++ l.ops) rows' := by
  obtain ⟨⟨n, es⟩, hrun, hrows⟩ := Option.bind_eq_some_iff.mp hx
  obtain ⟨s', hs', he⟩ := Option.map_eq_some_iff.mp hrows
  obtain ⟨rfl, -⟩ := Prod.mk.inj he
  have hstart : Node.Genuine c past (Node.new l.iface l.identity l.interval l.name
      (some (ColdStore.new rows l.opened)) l.hopLimit l.mono l.started) := by
    intro s hs
    obtain rfl := Option.some.inj hs
    refine ⟨fun m x hx => ?_, h⟩
    cases hx
  have hend := exec_history (fun past n => Node.Genuine c past n)
    (fun hn hstep => Node.Genuine.step hn hstep) hstart hrun
  have hleft : (n.routes.left l.clean l.closed).Genuine
      (Node.KeysOf c (past ++ .warm none :: l.ops))
      (Node.NameOf c (past ++ .warm none :: l.ops)) := by
    unfold RouteTable.left
    split_ifs
    · exact RouteTable.Genuine.mapCold hend (fun s hs => hs.flush l.closed) rfl
    · exact hend
  intro m r hr
  have hdrop {info : AnnounceInfo} (ha : Node.Announced c (past ++ .warm none :: l.ops) m info) :
      Node.Announced c (past ++ l.ops) m info := by
    obtain ⟨data, fm, clk, pkt, hmem, hrest⟩ := ha
    exact ⟨data, fm, clk, pkt, by simpa using hmem, hrest⟩
  refine ((hleft s' hs').onDisk m r hr).mono ?_ ?_
  · rintro a b ⟨info, hinfo, hk⟩
    exact ⟨info, hdrop hinfo, hk⟩
  · rintro x ⟨info, hinfo, hname⟩
    exact ⟨info, hdrop hinfo, hname⟩

/-- Any number of daemons on one database, with whatever identities, stopped or killed at any
point: all keys and names on disk are those of announces that one of them has verified. -/
theorem rows_authentic_across_lives (c : Crypto) {lives : List Life}
    {rows : OrderedDict NodeId Row} {esss : List (List (List Event))}
    (hx : exec (Life.run c) OrderedDict.empty lives = some (rows, esss)) (n : NodeId) (r : Row)
    (hr : rows.get? n = some r) :
    AuthenticRecord c (lives.flatMap Life.ops) n r.signPub r.encryptPub r.name := by
  have hstart : GenuineRows c (([] : List Life).flatMap Life.ops) OrderedDict.empty :=
    fun n r hr => by cases hr
  have hend := exec_history
    (fun past rows => GenuineRows c (past.flatMap Life.ops) rows)
    (fun {past rows l rows' ess} h hstep => by
      rw [List.flatMap_append, List.flatMap_singleton]
      exact GenuineRows.run h hstep)
    hstart hx
  exact (hend n r hr).authentic

/-- A daemon that is killed once the announce is on disk, and another one after it. -/
def announcedLives : List Life :=
  let life (ops : List Node.Op) (clean : Bool) : Life :=
    ⟨"wlan1", sampleIdentity, announceInterval, "", defaultHopLimit, 0, 0, 0, ops, clean, 200⟩
  [life announcedRun false, life [] true]

theorem rows_authentic_announcedLives : ∃ rows esss r,
    exec (Life.run sampleCrypto) OrderedDict.empty announcedLives = some (rows, esss) ∧
    rows.get? sampleNode = some r ∧ r.signPub = some samplePub ∧
    AuthenticRecord sampleCrypto (announcedLives.flatMap Life.ops) sampleNode r.signPub r.encryptPub
      r.name := by
  have hrun : (exec (Life.run sampleCrypto) OrderedDict.empty announcedLives).bind (fun x =>
      (x.1.get? sampleNode).map Row.signPub) = some (some samplePub) := by
    decide +kernel
  obtain ⟨⟨rows, esss⟩, hx, hrun⟩ := Option.bind_eq_some_iff.mp hrun
  obtain ⟨r, hr, hsign⟩ := Option.map_eq_some_iff.mp hrun
  exact ⟨rows, esss, r, hx, hr, hsign, rows_authentic_across_lives _ hx sampleNode r hr⟩

end Beachedmesh
