import Mathlib.Data.List.Basic
import Mathlib.Order.Basic
import Mathlib.Tactic

/-!
# Runs of a machine

A machine maps a state and an input to a new state and an output, or stops with
an error. `exec` folds it over a list of inputs. The rules below carry an
invariant along a run or a loop, also one about the inputs consumed so far, and
cut a clock that the inputs read into the times between them.
-/
namespace Machine

variable {σ ι ο : Type*}

/-- Run over the inputs in order; an error ends the run. -/
def exec (step : σ → ι → Option (σ × ο)) : σ → List ι → Option (σ × List ο)
  | s, [] => some (s, [])
  | s, i :: is =>
    (step s i).bind fun r => (exec step r.1 is).map fun q => (q.1, r.2 :: q.2)

variable {step : σ → ι → Option (σ × ο)}

@[simp] theorem exec_nil (s : σ) : exec step s [] = some (s, []) := rfl

theorem exec_cons_iff {s t : σ} {i : ι} {is : List ι} {os : List ο} :
    exec step s (i :: is) = some (t, os) ↔
      ∃ s' o os', step s i = some (s', o) ∧ exec step s' is = some (t, os') ∧ os = o :: os' := by
  simp only [exec, Option.bind_eq_some_iff, Option.map_eq_some_iff, Prod.exists, Prod.mk.injEq]
  constructor
  · rintro ⟨s', o, hs, t', os', hx, rfl, rfl⟩
    exact ⟨s', o, os', hs, hx, rfl⟩
  · rintro ⟨s', o, os', hs, hx, rfl⟩
    exact ⟨s', o, hs, t, os', hx, rfl, rfl⟩

theorem exec_append_iff {s t : σ} {is js : List ι} {os : List ο} :
    exec step s (is ++ js) = some (t, os) ↔
      ∃ s' os₁ os₂, exec step s is = some (s', os₁) ∧ exec step s' js = some (t, os₂) ∧
        os = os₁ ++ os₂ := by
  induction is generalizing s os with
  | nil => simp
  | cons i is ih =>
    simp only [List.cons_append, exec_cons_iff]
    constructor
    · rintro ⟨s', o, os', hs, hx, rfl⟩
      obtain ⟨u, os₁, os₂, h₁, h₂, rfl⟩ := ih.mp hx
      exact ⟨u, o :: os₁, os₂, ⟨s', o, os₁, hs, h₁, rfl⟩, h₂, rfl⟩
    · rintro ⟨u, os₁, os₂, ⟨s', o, os', hs, h₁, rfl⟩, h₂, rfl⟩
      exact ⟨s', o, os' ++ os₂, hs, ih.mpr ⟨u, os', os₂, h₁, h₂, rfl⟩, rfl⟩

/-- Every input has its output. -/
theorem length_exec {s t : σ} {is : List ι} {os : List ο} (h : exec step s is = some (t, os)) :
    os.length = is.length := by
  induction is generalizing s os with
  | nil =>
    obtain ⟨-, rfl⟩ := Prod.mk.inj (Option.some.inj h)
    rfl
  | cons i is ih =>
    obtain ⟨s', o, os', -, hx, rfl⟩ := exec_cons_iff.mp h
    exact congrArg Nat.succ (ih hx)

/-- An invariant of single steps holds after every run whose inputs satisfy `P`. -/
theorem exec_invariant {Inv : σ → Prop} {P : ι → Prop}
    (hstep : ∀ {s i s' o}, Inv s → P i → step s i = some (s', o) → Inv s')
    {s t : σ} {is : List ι} {os : List ο} (hs : Inv s) (hP : ∀ i ∈ is, P i)
    (hx : exec step s is = some (t, os)) : Inv t := by
  induction is generalizing s os with
  | nil =>
    obtain ⟨rfl, -⟩ := Prod.mk.inj (Option.some.inj hx)
    exact hs
  | cons i is ih =>
    obtain ⟨s', o, os', h₁, h₂, -⟩ := exec_cons_iff.mp hx
    exact ih (hstep hs (hP i (by simp)) h₁) (fun j hj => hP j (by simp [hj])) h₂

/-- An invariant that also speaks of the inputs consumed so far. -/
theorem exec_history (Inv : List ι → σ → Prop)
    (hstep : ∀ {is s i s' o}, Inv is s → step s i = some (s', o) → Inv (is ++ [i]) s')
    {s t : σ} {past is : List ι} {os : List ο} (hs : Inv past s)
    (hx : exec step s is = some (t, os)) : Inv (past ++ is) t := by
  induction is generalizing s past os with
  | nil =>
    obtain ⟨rfl, -⟩ := Prod.mk.inj (Option.some.inj hx)
    simpa using hs
  | cons i is ih =>
    obtain ⟨s', o, os', h₁, h₂, -⟩ := exec_cons_iff.mp hx
    have h := ih (hstep hs h₁) h₂
    rwa [List.append_assoc] at h

/-- An invariant of every prefix of a run, where a step may use where it stands. -/
theorem exec_prefix (Inv : List ι → σ → Prop) {s₀ : σ} {is : List ι} (h₀ : Inv [] s₀)
    (hstep : ∀ pre i post s os s' o, is = pre ++ i :: post → exec step s₀ pre = some (s, os) →
      Inv pre s → step s i = some (s', o) → Inv (pre ++ [i]) s')
    {pre post : List ι} (hpre : is = pre ++ post) {s : σ} {os : List ο}
    (hx : exec step s₀ pre = some (s, os)) : Inv pre s := by
  induction pre using List.reverseRecOn generalizing post s os with
  | nil =>
    obtain ⟨rfl, -⟩ := Prod.mk.inj (Option.some.inj hx)
    exact h₀
  | append_singleton pre i ih =>
    obtain ⟨s', os₁, os₂, h₁, h₂, -⟩ := exec_append_iff.mp hx
    obtain ⟨t, o, os₃, h₃, h₄, -⟩ := exec_cons_iff.mp h₂
    obtain ⟨rfl, -⟩ := Prod.mk.inj (Option.some.inj h₄)
    rw [List.append_assoc] at hpre
    exact hstep pre i post s' os₁ t o hpre h₁ (ih hpre h₁) h₃

/-! ### Records -/

/-- The list pairs every input of a run with its output. -/
def Records (step : σ → ι → Option (σ × ο)) (s : σ) (h : List (ι × ο)) (t : σ) : Prop :=
  exec step s (h.map Prod.fst) = some (t, h.map Prod.snd)

theorem records_nil_iff {s t : σ} : Records step s [] t ↔ s = t := by
  simp [Records]

theorem records_cons_iff {s t : σ} {e : ι × ο} {h : List (ι × ο)} :
    Records step s (e :: h) t ↔ ∃ s', step s e.1 = some (s', e.2) ∧ Records step s' h t := by
  rw [Records, List.map_cons, List.map_cons, exec_cons_iff]
  constructor
  · rintro ⟨s', o, os, hs, hx, heq⟩
    obtain ⟨rfl, rfl⟩ := List.cons.inj heq
    exact ⟨s', hs, hx⟩
  · rintro ⟨s', hs, hx⟩
    exact ⟨s', e.2, _, hs, hx, rfl⟩

theorem records_append_iff {s t : σ} {h h' : List (ι × ο)} :
    Records step s (h ++ h') t ↔ ∃ s', Records step s h s' ∧ Records step s' h' t := by
  induction h generalizing s with
  | nil => simp [records_nil_iff]
  | cons e h ih =>
    simp only [List.cons_append, records_cons_iff, ih]
    constructor
    · rintro ⟨u, hu, s', h₁, h₂⟩
      exact ⟨s', ⟨u, hu, h₁⟩, h₂⟩
    · rintro ⟨s', ⟨u, hu, h₁⟩, h₂⟩
      exact ⟨u, hu, s', h₁, h₂⟩

/-- Every run has its record. -/
theorem records_zip {s t : σ} {is : List ι} {os : List ο} (h : exec step s is = some (t, os)) :
    Records step s (is.zip os) t := by
  have hlen := length_exec h
  rwa [Records, List.map_fst_zip hlen.ge, List.map_snd_zip hlen.le]

/-- An invariant of single steps, along a record. -/
theorem Records.invariant {Inv : σ → Prop}
    (hstep : ∀ {s i s' o}, Inv s → step s i = some (s', o) → Inv s') {s t : σ}
    {h : List (ι × ο)} (hs : Inv s) (hx : Records step s h t) : Inv t :=
  exec_invariant (P := fun _ => True) (fun hs _ h => hstep hs h) hs (by simp) hx

/-! ### Simulation -/

/-- A machine that another one follows: to each step belong some steps of the other, with
the same outputs, that keep the relation. -/
theorem exec_simulation {σ₂ ι₂ ε : Type*} {step : σ → ι → Option (σ × List ε)}
    (step₂ : σ₂ → ι₂ → Option (σ₂ × List ε)) {R : σ → σ₂ → Prop} {f : ι → List ι₂}
    (hstep : ∀ {s u i s' o}, R s u → step s i = some (s', o) →
      ∃ u' os, exec step₂ u (f i) = some (u', os) ∧ R s' u' ∧ os.flatten = o)
    {s t : σ} {u : σ₂} {is : List ι} {os : List (List ε)} (hR : R s u)
    (hx : exec step s is = some (t, os)) :
    ∃ v os', exec step₂ u (is.flatMap f) = some (v, os') ∧ R t v ∧ os'.flatten = os.flatten := by
  induction is generalizing s u os with
  | nil =>
    obtain ⟨rfl, rfl⟩ := Prod.mk.inj (Option.some.inj hx)
    exact ⟨u, [], rfl, hR, rfl⟩
  | cons i is ih =>
    obtain ⟨s', o, os', h₁, h₂, rfl⟩ := exec_cons_iff.mp hx
    obtain ⟨u', os₁, hx₁, hR', rfl⟩ := hstep hR h₁
    obtain ⟨v, os₂, hx₂, hRv, hflat⟩ := ih hR' h₂
    refine ⟨v, os₁ ++ os₂, exec_append_iff.mpr ⟨u', os₁, os₂, hx₁, hx₂, rfl⟩, hRv, ?_⟩
    rw [List.flatten_append, List.flatten_cons, hflat]

/-! ### Guards -/

/-- The steps that a guard on the state and the input lets through. -/
def guarded (G : σ → ι → Prop) [∀ s i, Decidable (G s i)] (step : σ → ι → Option (σ × ο)) (s : σ)
    (i : ι) : Option (σ × ο) :=
  if G s i then step s i else none

theorem guarded_eq_some_iff {G : σ → ι → Prop} [∀ s i, Decidable (G s i)] {s : σ} {i : ι}
    {r : σ × ο} : guarded G step s i = some r ↔ G s i ∧ step s i = some r := by
  unfold guarded
  split_ifs with h
  · simp [h]
  · simp [h]

/-- A guarded run is a run. -/
theorem exec_of_guarded {G : σ → ι → Prop} [∀ s i, Decidable (G s i)] {s t : σ} {is : List ι}
    {os : List ο} (hx : exec (guarded G step) s is = some (t, os)) :
    exec step s is = some (t, os) := by
  induction is generalizing s os with
  | nil => exact hx
  | cons i is ih =>
    obtain ⟨s', o, os', h₁, h₂, rfl⟩ := exec_cons_iff.mp hx
    exact exec_cons_iff.mpr ⟨s', o, os', (guarded_eq_some_iff.mp h₁).2, ih h₂, rfl⟩

/-- A guarded run is one under any weaker guard. -/
theorem exec_guarded_mono {G G' : σ → ι → Prop} [∀ s i, Decidable (G s i)]
    [∀ s i, Decidable (G' s i)] (hG : ∀ {s i}, G s i → G' s i) {s t : σ} {is : List ι} {os : List ο}
    (hx : exec (guarded G step) s is = some (t, os)) :
    exec (guarded G' step) s is = some (t, os) := by
  induction is generalizing s os with
  | nil => exact hx
  | cons i is ih =>
    obtain ⟨s', o, os', h₁, h₂, rfl⟩ := exec_cons_iff.mp hx
    obtain ⟨hi, hone⟩ := guarded_eq_some_iff.mp h₁
    exact exec_cons_iff.mpr ⟨s', o, os', guarded_eq_some_iff.mpr ⟨hG hi, hone⟩, ih h₂, rfl⟩

/-- An invariant of the steps that the guard lets through. -/
theorem exec_guarded_invariant {G : σ → ι → Prop} [∀ s i, Decidable (G s i)] {Inv : σ → Prop}
    (hstep : ∀ {s i s' o}, Inv s → G s i → step s i = some (s', o) → Inv s') {s t : σ}
    {is : List ι} {os : List ο} (hs : Inv s) (hx : exec (guarded G step) s is = some (t, os)) :
    Inv t := by
  refine exec_invariant (P := fun _ => True) (fun {s i s' o} hinv _ h => ?_) hs (by simp) hx
  obtain ⟨hG, h'⟩ := guarded_eq_some_iff.mp h
  exact hstep hinv hG h'

/-! ### What holds throughout -/

/-- The steps that lead to a state with `P`. -/
def keeping (P : σ → Prop) [DecidablePred P] (step : σ → ι → Option (σ × ο)) (s : σ) (i : ι) :
    Option (σ × ο) :=
  (step s i).filter fun r => decide (P r.1)

theorem keeping_eq_some_iff {P : σ → Prop} [DecidablePred P] {s : σ} {i : ι} {r : σ × ο} :
    keeping P step s i = some r ↔ step s i = some r ∧ P r.1 := by
  simp [keeping, Option.filter_eq_some_iff]

/-- In every state that the run takes a step from, the state and the input satisfy `Q`. -/
def EachStep (step : σ → ι → Option (σ × ο)) (Q : σ → ι → Prop) (s : σ) (is : List ι) : Prop :=
  ∀ pre i post t os, is = pre ++ i :: post → exec step s pre = some (t, os) → Q t i

theorem eachStep_nil (Q : σ → ι → Prop) (s : σ) : EachStep step Q s [] := by
  intro pre i post t os h
  simp at h

theorem eachStep_cons_iff {Q : σ → ι → Prop} {s s' : σ} {i : ι} {o : ο} {is : List ι}
    (hstep : step s i = some (s', o)) :
    EachStep step Q s (i :: is) ↔ Q s i ∧ EachStep step Q s' is := by
  constructor
  · intro h
    refine ⟨h [] i is s [] rfl rfl, fun pre j post t os his hx => ?_⟩
    exact h (i :: pre) j post t (o :: os) (by rw [his]; rfl)
      (exec_cons_iff.mpr ⟨s', o, os, hstep, hx, rfl⟩)
  · rintro ⟨hQ, h⟩ pre j post t os his hx
    cases pre with
    | nil =>
      obtain ⟨rfl, -⟩ := List.cons.inj his
      obtain ⟨rfl, -⟩ := Prod.mk.inj (Option.some.inj hx)
      exact hQ
    | cons k pre =>
      obtain ⟨rfl, hrest⟩ := List.cons.inj his
      obtain ⟨u, o', os', hone, hx', -⟩ := exec_cons_iff.mp hx
      obtain ⟨rfl, -⟩ := Prod.mk.inj (Option.some.inj (hstep.symm.trans hone))
      exact h pre j post t os' hrest hx'

theorem eachStep_of_forall {Q : σ → ι → Prop} {is : List ι} (h : ∀ i ∈ is, ∀ t, Q t i) (s : σ) :
    EachStep step Q s is :=
  fun pre i post t os his hx => h i (by rw [his]; simp) t

/-- An invariant of the steps that satisfy `Q` where they are taken. -/
theorem EachStep.invariant {Inv : σ → Prop} {Q : σ → ι → Prop} {s t : σ} {is : List ι}
    {os : List ο} (h : EachStep step Q s is)
    (hstep : ∀ {s i s' o}, Inv s → Q s i → step s i = some (s', o) → Inv s') (hs : Inv s)
    (hx : exec step s is = some (t, os)) : Inv t := by
  induction is generalizing s os with
  | nil =>
    obtain ⟨rfl, -⟩ := Prod.mk.inj (Option.some.inj hx)
    exact hs
  | cons i is ih =>
    obtain ⟨s', o, os', hone, hrest, -⟩ := exec_cons_iff.mp hx
    obtain ⟨hi, his⟩ := (eachStep_cons_iff hone).mp h
    exact ih his (hstep hs hi hone) hrest

theorem EachStep.mono {Q Q' : σ → ι → Prop} {s : σ} {is : List ι} (h : EachStep step Q s is)
    (hQ : ∀ {t i}, i ∈ is → Q t i → Q' t i) : EachStep step Q' s is :=
  fun pre i post t os his hx => hQ (by rw [his]; simp) (h pre i post t os his hx)

/-- What implies another property wherever an invariant holds implies it along every run. -/
theorem eachStep_imp {Inv : σ → Prop} {P : ι → Prop} {Q Q' : σ → ι → Prop}
    (hstep : ∀ {s i s' o}, Inv s → P i → step s i = some (s', o) → Inv s')
    (h : ∀ {t i}, Inv t → P i → Q t i → Q' t i) {s : σ} {is : List ι} (hs : Inv s)
    (hP : ∀ i ∈ is, P i) (hQ : EachStep step Q s is) : EachStep step Q' s is := by
  intro pre i post t os his hx
  have hpre : ∀ j ∈ pre, P j := fun j hj => hP j (by rw [his]; exact List.mem_append_left _ hj)
  exact h (exec_invariant hstep hs hpre hx) (hP i (by rw [his]; simp)) (hQ pre i post t os his hx)

/-- A loop over a list that may stop with an error keeps what its body keeps. -/
theorem foldlM_invariant {α : Type*} {f : σ → α → Option σ} (Inv : σ → Prop) {l : List α}
    (hf : ∀ {s a s'}, a ∈ l → Inv s → f s a = some s' → Inv s') {s t : σ} (hs : Inv s)
    (hx : l.foldlM f s = some t) : Inv t := by
  induction l generalizing s with
  | nil =>
    obtain rfl : s = t := Option.some.inj hx
    exact hs
  | cons a l ih =>
    rw [List.foldlM_cons] at hx
    obtain ⟨s', h₁, h₂⟩ := Option.bind_eq_some_iff.mp hx
    exact ih (fun ha => hf (List.mem_cons_of_mem _ ha)) (hf (by simp) hs h₁) h₂

/-- Two loops over one list whose bodies keep a relation. -/
theorem foldlM_simulation {σ₂ α : Type*} {f : σ → α → Option σ} {g : σ₂ → α → Option σ₂}
    {R : σ → σ₂ → Prop} {l : List α}
    (hfg : ∀ {s u a s' u'}, a ∈ l → R s u → f s a = some s' → g u a = some u' → R s' u')
    {s t : σ} {u v : σ₂} (hR : R s u) (hf : l.foldlM f s = some t)
    (hg : l.foldlM g u = some v) : R t v := by
  induction l generalizing s u with
  | nil =>
    obtain rfl : s = t := Option.some.inj hf
    obtain rfl : u = v := Option.some.inj hg
    exact hR
  | cons a l ih =>
    rw [List.foldlM_cons] at hf hg
    obtain ⟨s', h₁, h₂⟩ := Option.bind_eq_some_iff.mp hf
    obtain ⟨u', h₃, h₄⟩ := Option.bind_eq_some_iff.mp hg
    exact ih (fun ha => hfg (List.mem_cons_of_mem _ ha)) (hfg (by simp) hR h₁ h₃) h₂ h₄

/-- A loop whose body the other one follows. -/
theorem foldlM_forward {σ₂ α : Type*} {f : σ → α → Option σ} {g : σ₂ → α → Option σ₂}
    {R : σ → σ₂ → Prop} {l : List α}
    (hfg : ∀ {s u a s'}, R s u → f s a = some s' → ∃ u', g u a = some u' ∧ R s' u')
    {s t : σ} {u : σ₂} (hR : R s u) (hf : l.foldlM f s = some t) :
    ∃ v, l.foldlM g u = some v ∧ R t v := by
  induction l generalizing s u with
  | nil =>
    obtain rfl : s = t := Option.some.inj hf
    exact ⟨u, rfl, hR⟩
  | cons a l ih =>
    rw [List.foldlM_cons] at hf
    obtain ⟨s', h₁, h₂⟩ := Option.bind_eq_some_iff.mp hf
    obtain ⟨u', h₃, hR'⟩ := hfg hR h₁
    obtain ⟨v, h₄, hRv⟩ := ih hR' h₂
    exact ⟨v, by rw [List.foldlM_cons, h₃]; exact h₄, hRv⟩

/-- A machine that follows another one step by step follows its runs. -/
theorem exec_forward {σ₂ ο₂ : Type*} {step₂ : σ₂ → ι → Option (σ₂ × ο₂)} {R : σ → σ₂ → Prop}
    {is : List ι}
    (h : ∀ {s u i s' o}, i ∈ is → R s u → step s i = some (s', o) →
      ∃ u' o', step₂ u i = some (u', o') ∧ R s' u')
    {s t : σ} {u : σ₂} {os : List ο} (hR : R s u) (hx : exec step s is = some (t, os)) :
    ∃ v ps, exec step₂ u is = some (v, ps) ∧ R t v := by
  induction is generalizing s u os with
  | nil =>
    obtain ⟨rfl, -⟩ := Prod.mk.inj (Option.some.inj hx)
    exact ⟨u, [], rfl, hR⟩
  | cons i is ih =>
    obtain ⟨s', o, os', hone, hrest, -⟩ := exec_cons_iff.mp hx
    obtain ⟨u', o', htwo, hR'⟩ := h (by simp) hR hone
    obtain ⟨v, ps, hv, hRv⟩ := ih (fun hi => h (List.mem_cons_of_mem _ hi)) hR' hrest
    exact ⟨v, o' :: ps, exec_cons_iff.mpr ⟨u', o', ps, htwo, hv, rfl⟩, hRv⟩

/-! ### Clocks -/

section Clock

variable {τ : Type*} [Preorder τ] (readings : ι → List τ)

/-- From time `T` on, the inputs read a clock that never goes back. -/
def Clocked (T : τ) (is : List ι) : Prop := (T :: is.flatMap readings).Pairwise (· ≤ ·)

/-- The readings of one input, between the times before and after it. -/
structure Ticks (T T' : τ) (rs : List τ) : Prop where
  le : T ≤ T'
  lower : ∀ r ∈ rs, T ≤ r
  upper : ∀ r ∈ rs, r ≤ T'
  mono : rs.Pairwise (· ≤ ·)

variable {readings}

/-- The clock after an input stands at its last reading, or where it stood. -/
theorem Clocked.cons_mem {T : τ} {i : ι} {is : List ι} (h : Clocked readings T (i :: is)) :
    ∃ T', (T' = T ∨ T' ∈ readings i) ∧ Ticks T T' (readings i) ∧ Clocked readings T' is := by
  simp only [Clocked, List.flatMap_cons, List.pairwise_cons, List.pairwise_append,
    List.mem_append] at h
  obtain ⟨hT, hi, his, hcross⟩ := h
  cases hr : readings i using List.reverseRecOn with
  | nil =>
    refine ⟨T, Or.inl rfl, ⟨le_rfl, by simp, by simp, List.Pairwise.nil⟩, ?_⟩
    exact List.pairwise_cons.mpr ⟨fun r hr => hT r (Or.inr hr), his⟩
  | append_singleton rs r =>
    rw [hr] at hT hi hcross
    refine ⟨r, Or.inr (by simp), ⟨hT r (by simp), fun q hq => hT q (Or.inl hq), fun q hq => ?_,
      hi⟩, ?_⟩
    · rcases List.mem_append.mp hq with hq | hq
      · exact (List.pairwise_append.mp hi).2.2 q hq r (by simp)
      · obtain rfl : q = r := by simpa using hq
        exact le_rfl
    · exact List.pairwise_cons.mpr ⟨fun q hq => hcross r (by simp) q hq, his⟩

theorem Clocked.cons {T : τ} {i : ι} {is : List ι} (h : Clocked readings T (i :: is)) :
    ∃ T', Ticks T T' (readings i) ∧ Clocked readings T' is := by
  obtain ⟨T', -, hticks, hrest⟩ := h.cons_mem
  exact ⟨T', hticks, hrest⟩

/-- No reading is before the time at which the clock is first known. -/
theorem Clocked.le {T : τ} {is : List ι} (h : Clocked readings T is) {i : ι} (hi : i ∈ is) {r : τ}
    (hr : r ∈ readings i) : T ≤ r :=
  (List.pairwise_cons.mp h).1 r (List.mem_flatMap.mpr ⟨i, hi, hr⟩)

/-- Nor is a later one before an earlier one. -/
theorem Clocked.le_of_append {T : τ} {is js : List ι} (h : Clocked readings T (is ++ js)) {i j : ι}
    (hi : i ∈ is) (hj : j ∈ js) {r r' : τ} (hr : r ∈ readings i) (hr' : r' ∈ readings j) :
    r ≤ r' := by
  have hpair := (List.pairwise_cons.mp h).2
  rw [List.flatMap_append, List.pairwise_append] at hpair
  exact hpair.2.2 r (List.mem_flatMap.mpr ⟨i, hi, hr⟩) r' (List.mem_flatMap.mpr ⟨j, hj, hr'⟩)

theorem Ticks.sublist {T T' : τ} {rs rs' : List τ} (h : Ticks T T' rs) (hsub : rs'.Sublist rs) :
    Ticks T T' rs' :=
  ⟨h.le, fun r hr => h.lower r (hsub.subset hr), fun r hr => h.upper r (hsub.subset hr),
    h.mono.sublist hsub⟩

/-- An invariant that speaks of the time, along a run of inputs that satisfy `P` and up to
the rest of its clock. -/
theorem exec_clocked {Inv : τ → σ → Prop} {P : ι → Prop}
    (hstep : ∀ {T T' s i s' o}, Inv T s → P i → Ticks T T' (readings i) →
      step s i = some (s', o) → Inv T' s') {T : τ} {s t : σ} {is js : List ι} {os : List ο}
    (hs : Inv T s) (hP : ∀ i ∈ is, P i) (hclock : Clocked readings T (is ++ js))
    (hx : exec step s is = some (t, os)) : ∃ T', Inv T' t ∧ Clocked readings T' js := by
  induction is generalizing T s os with
  | nil =>
    obtain ⟨rfl, -⟩ := Prod.mk.inj (Option.some.inj hx)
    exact ⟨T, hs, hclock⟩
  | cons i is ih =>
    obtain ⟨s', o, os', hone, hrest, -⟩ := exec_cons_iff.mp hx
    obtain ⟨T', htick, hclock'⟩ := Clocked.cons hclock
    exact ih (hstep hs (hP i (by simp)) htick hone) (fun j hj => hP j (by simp [hj])) hclock' hrest

end Clock

end Machine
