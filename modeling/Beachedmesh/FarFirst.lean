import Beachedmesh.Latency

/-!
# The farthest first

A node that hears a packet weakly relays it before one that hears it strongly. The bands of
the delays are apart, jitter included, by five milliseconds at the least; so the order holds
where the radio and the loops of the nodes are faster than that.
-/
namespace Beachedmesh
open Machine

/-- The place of the band for a signal. -/
def bandOf (rssi : ℤ) : ℕ :=
  delayBands.findIdx fun band => band.1.all fun threshold => decide (rssi ≤ threshold)

/-- Jitter stays inside its band. -/
theorem bands_apart :
    delayBands.Pairwise fun band band' => band.2.1 + band.2.2 + 5 ≤ band'.2.1 := by
  decide +kernel

theorem jitter_nonneg : ∀ band ∈ delayBands, 0 ≤ band.2.2 := by
  decide +kernel

/-- Every signal has a band. -/
theorem relayDelay_band (rssi : ℤ) : ∃ band, delayBands[bandOf rssi]? = some band ∧
    ∀ draw, relayDelay (some rssi) draw = (band.2.1 + band.2.2 * draw) / 1000 := by
  have hlast : ∃ band ∈ delayBands,
      (band.1.all fun threshold => decide (rssi ≤ threshold)) = true :=
    ⟨(none, 200, 30), by decide +kernel, rfl⟩
  have hlt : bandOf rssi < delayBands.length := List.findIdx_lt_length_of_exists hlast
  have hfind : delayBands.find? (fun band => band.1.all fun threshold =>
      decide (rssi ≤ threshold)) = some delayBands[bandOf rssi] := by
    rw [List.find?_eq_getElem?_findIdx]
    exact List.getElem?_eq_getElem hlt
  refine ⟨delayBands[bandOf rssi], List.getElem?_eq_getElem hlt, fun draw => ?_⟩
  rw [relayDelay, hfind]

/-- Whatever the draws, the delay in an earlier band is shorter. -/
theorem relayDelay_add_le {rssi rssi' : ℤ} (h : bandOf rssi < bandOf rssi') {draw draw' : ℚ}
    (hdraw : draw ≤ 1) (hdraw' : 0 ≤ draw') :
    relayDelay (some rssi) draw + 5 / 1000 ≤ relayDelay (some rssi') draw' := by
  obtain ⟨band, hband, hdelay⟩ := relayDelay_band rssi
  obtain ⟨band', hband', hdelay'⟩ := relayDelay_band rssi'
  obtain ⟨hlt, rfl⟩ := List.getElem?_eq_some_iff.mp hband
  obtain ⟨hlt', rfl⟩ := List.getElem?_eq_some_iff.mp hband'
  have hapart := List.pairwise_iff_getElem.mp bands_apart _ _ hlt hlt' h
  have hjitter := jitter_nonneg _ (List.getElem_mem hlt)
  have hjitter' := jitter_nonneg _ (List.getElem_mem hlt')
  have hmost := mul_le_of_le_one_right hjitter hdraw
  have hleast := mul_nonneg hjitter' hdraw'
  rw [hdelay, hdelay']
  linarith

namespace TimedMesh

variable {ι : Type} {c : Crypto} {mac : ι → Mac} {P : Pace ι} {s s' : TimedMesh ι}
  {past : List (ℚ × Mesh.Op ι)}

/-- Nobody has received a transmission twice. -/
structure Receptions (past : List (ℚ × Mesh.Op ι)) (mesh : Mesh ι) : Prop where
  got : ∀ t j a rssi clk, (t, Mesh.Op.deliver j a rssi clk) ∈ past → (j, a) ∈ mesh.got
  unique : ∀ t t' j a rssi rssi' clk clk', (t, Mesh.Op.deliver j a rssi clk) ∈ past →
    (t', Mesh.Op.deliver j a rssi' clk') ∈ past → rssi = rssi'

theorem receptions_nil (mesh : Mesh ι) : Receptions [] mesh := ⟨by simp, by simp⟩

section Step

variable [DecidableEq ι] {i : ℚ × Mesh.Op ι} {es : List Event}

/-- The step keeps to the pace and hands nobody a transmission twice. -/
def Orderly (P : Pace ι) (s : TimedMesh ι) (i : ℚ × Mesh.Op ι) : Prop :=
  s.Punctual P i ∧ s.mesh.OncePerNode i.2

instance (P : Pace ι) (s : TimedMesh ι) (i : ℚ × Mesh.Op ι) : Decidable (s.Orderly P i) :=
  inferInstanceAs (Decidable (_ ∧ _))

theorem Receptions.step (h : Receptions past s.mesh) (honce : s.mesh.OncePerNode i.2)
    (hx : s.step c mac i = some (s', es)) : Receptions (past ++ [i]) s'.mesh := by
  have hmesh := (step_eq_some_iff.mp hx).1
  obtain ⟨mesh', now', sentAt'⟩ := s'
  dsimp only at hmesh
  have hext := Mesh.extends_step hmesh
  -- a reception that is among the steps before this one is not this one
  have hnew {t t' : ℚ} {j : ℕ} {a : ι} {rssi rssi' : Option ℤ} {clk clk' : HandleClock}
      (hmem : (t, Mesh.Op.deliver j a rssi clk) ∈ past)
      (hi : i = (t', Mesh.Op.deliver j a rssi' clk')) : False := by
    subst hi
    cases Mesh.step_cases hmesh with
    | deliver e _ _ he _ => exact (honce e he).2 (h.got t j a rssi clk hmem)
  refine ⟨fun t j a rssi clk hmem => ?_, fun t t' j a rssi rssi' clk clk' hmem hmem' => ?_⟩
  · rcases List.mem_append.mp hmem with hold | hlast
    · exact hext.got _ (h.got t j a rssi clk hold)
    · obtain rfl := List.mem_singleton.mp hlast
      cases Mesh.step_cases hmesh with
      | deliver _ _ _ _ _ => simp
  · rcases List.mem_append.mp hmem with hold | hlast <;>
      rcases List.mem_append.mp hmem' with hold' | hlast'
    · exact h.unique t t' j a rssi rssi' clk clk' hold hold'
    · exact (hnew hold (List.mem_singleton.mp hlast').symm).elim
    · exact (hnew hold' (List.mem_singleton.mp hlast).symm).elim
    · have hsame := (List.mem_singleton.mp hlast).trans (List.mem_singleton.mp hlast').symm
      cases hsame
      rfl

theorem receptions_exec {ins : List (ℚ × Mesh.Op ι)} {ess : List (List Event)}
    (hx : exec (guarded (Orderly P) (step c mac)) s ins = some (s', ess)) :
    Receptions ins s'.mesh :=
  exec_history (fun past (u : TimedMesh ι) => Receptions past u.mesh) (fun h hx => by
    obtain ⟨hP, hx⟩ := guarded_eq_some_iff.mp hx
    exact h.step hP.2 hx) (receptions_nil s.mesh) hx

end Step

end TimedMesh

/-- In every run that keeps to a pace of less than five milliseconds for the way of a
transmission and the lateness of a relay together, with nobody handed a transmission twice:
of two nodes that relay one transmission, the one that heard it in an earlier band goes
first. -/
theorem far_first {ι : Type} [DecidableEq ι] (c : Crypto) (mac : ι → Mac) (P : Pace ι)
    {s₀ s : TimedMesh ι} (h₀ : s₀.mesh.Fresh) (hfast : P.flight + P.gap < 5 / 1000)
    {ins : List (ℚ × Mesh.Op ι)} {ess : List (List Event)}
    (hx : exec (guarded (TimedMesh.Orderly P) (TimedMesh.step c mac)) s₀ ins = some (s, ess))
    {j k k' : ℕ} {e e' : Emission ι} (he : s.mesh.air[k]? = some e) (hj : e.cause = some j)
    (he' : s.mesh.air[k']? = some e') (hj' : e'.cause = some j) {t t' : ℚ} {rssi rssi' : ℤ}
    {clk clk' : HandleClock} (hr : (t, .deliver j e.sender (some rssi) clk) ∈ ins)
    (hr' : (t', .deliver j e'.sender (some rssi') clk') ∈ ins)
    (hband : bandOf rssi < bandOf rssi') : s.sentAt k < s.sentAt k' := by
  have hpace := TimedMesh.onPace_exec h₀ (exec_guarded_mono And.left hx)
  have hreceptions := TimedMesh.receptions_exec hx
  have hheard {a : ι} {t : ℚ} {rssi : ℤ} {clk : HandleClock} {x : ℚ}
      (hmem : (t, Mesh.Op.deliver j a (some rssi) clk) ∈ ins) (hdraw : TimedMesh.Draws ins j a x) :
      ∃ draw, 0 ≤ draw ∧ draw ≤ 1 ∧ x = relayDelay (some rssi) draw := by
    obtain ⟨t', rssi', clk', hmem', hdraw₀, hdraw₁, rfl⟩ := hdraw
    obtain rfl := hreceptions.unique t t' j a (some rssi) rssi' clk clk' hmem hmem'
    exact ⟨clk'.draw, hdraw₀, hdraw₁, rfl⟩
  obtain ⟨x, hx, -, hlate⟩ := hpace.air k e j he hj
  obtain ⟨x', hx', hearly, -⟩ := hpace.air k' e' j he' hj'
  obtain ⟨draw, -, hdraw, rfl⟩ := hheard hr hx
  obtain ⟨draw', hdraw', -, rfl⟩ := hheard hr' hx'
  have hapart := relayDelay_add_le hband hdraw hdraw'
  linarith

/-- Steps of the nodes 1 and 2, which look for due relays every three milliseconds. -/
def looking : List (ℚ × Mesh.Op (Fin 3)) := (List.range 32).flatMap fun i =>
  [(100 + 3 * i / 1000, .act 1 (.relay (100 + 3 * i / 1000) 1)),
    (100 + 3 * i / 1000, .act 2 (.relay (100 + 3 * i / 1000) 1))]

/-- Node 0 is heard at the same time by node 1, far off, and by node 2, close by. -/
def farAndNear : List (ℚ × Mesh.Op (Fin 3)) :=
  [(100, .act 0 (.announce ⟨⟨sampleRandom, length_sampleRandom⟩, packetIdOf 1, 100, 100⟩ true)),
    (100, .deliver 0 2 (some (-60)) (HandleClock.const 100)),
    (100, .deliver 0 1 (some (-95)) (HandleClock.const 100))] ++ looking

def milliPace : Pace (Fin 3) :=
  ⟨1 / 1000, 3 / 1000, fun _ => 0, by decide +kernel, by decide +kernel⟩

/-- The far one relays first, though it heard the packet last. -/
theorem far_first_line : ∃ s ess,
    exec (guarded (TimedMesh.Orderly milliPace) (TimedMesh.step lineCrypto lineMac)) timedLine
      farAndNear = some (s, ess) ∧ s.mesh.air.map Emission.sender = [0, 1, 2] ∧
    s.sentAt 1 < s.sentAt 2 := by
  have hrun : (exec (guarded (TimedMesh.Orderly milliPace) (TimedMesh.step lineCrypto lineMac))
      timedLine farAndNear).map (fun r => r.1.mesh.air.map fun e => (e.sender, e.cause)) =
        some [(0, none), (1, some 0), (2, some 0)] := by
    decide +kernel
  obtain ⟨⟨s, ess⟩, hx, hair⟩ := Option.map_eq_some_iff.mp hrun
  have hsenders : s.mesh.air.map Emission.sender = [0, 1, 2] := by
    have hfirst := congrArg (List.map Prod.fst) hair
    rwa [List.map_map] at hfirst
  have hat {k : ℕ} {x : Fin 3 × Option ℕ}
      (hk : [((0 : Fin 3), none), (1, some 0), (2, some 0)][k]? = some x) :
      ∃ e, s.mesh.air[k]? = some e ∧ (e.sender, e.cause) = x := by
    rw [← hair, List.getElem?_map] at hk
    exact Option.map_eq_some_iff.mp hk
  obtain ⟨e, he, hrelay⟩ := hat (k := 1) rfl
  obtain ⟨e', he', hrelay'⟩ := hat (k := 2) rfl
  obtain ⟨hsender, hcause⟩ := Prod.mk.inj hrelay
  obtain ⟨hsender', hcause'⟩ := Prod.mk.inj hrelay'
  have hfar : ((100 : ℚ), Mesh.Op.deliver 0 e.sender (some (-95)) (HandleClock.const 100)) ∈
      farAndNear := by
    rw [hsender]
    exact List.mem_append_left _ (by simp)
  have hnear : ((100 : ℚ), Mesh.Op.deliver 0 e'.sender (some (-60)) (HandleClock.const 100)) ∈
      farAndNear := by
    rw [hsender']
    exact List.mem_append_left _ (by simp)
  exact ⟨s, ess, hx, hsenders, far_first lineCrypto lineMac milliPace fresh_lineMesh
    (by decide +kernel) hx he hcause he' hcause' hfar hnear
    (by decide +kernel)⟩

end Beachedmesh
