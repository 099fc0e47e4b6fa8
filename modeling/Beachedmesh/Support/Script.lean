import Beachedmesh.Support.Machine

/-!
# Scripts that can be killed

A script acts on a state in indivisible steps and ends with a value or an error. Its trail
lists the states it passes through, and a kill leaves it at one of them. `wp` is the
weakest precondition for a postcondition and for a condition on whatever a kill leaves;
its equations run a script symbolically.
-/

/-- From a state, the states passed through and the result. -/
def Script (σ ε α : Type) : Type := σ → List σ × Except ε α

namespace Script
open Machine

variable {σ ε α β ι : Type}

def trail (m : Script σ ε α) (s : σ) : List σ := (m s).1

def result (m : Script σ ε α) (s : σ) : Except ε α := (m s).2

/-- Where the script ends. -/
def last (m : Script σ ε α) (s : σ) : σ := (m.trail s).getLastD s

instance : Monad (Script σ ε) where
  pure a := fun _ => ([], .ok a)
  bind m f := fun s =>
    match m.result s with
    | .ok a => (m.trail s ++ (f a).trail (m.last s), (f a).result (m.last s))
    | .error e => (m.trail s, .error e)

/-- One indivisible step. -/
def act (g : σ → σ) : Script σ ε Unit := fun s => ([g s], .ok ())

def look (g : σ → α) : Script σ ε α := fun s => ([], .ok (g s))

def fail (e : ε) : Script σ ε α := fun _ => ([], .error e)

def require (c : Prop) [Decidable c] (e : ε) : Script σ ε Unit := if c then pure () else fail e

def when (c : Prop) [Decidable c] (m : Script σ ε Unit) : Script σ ε Unit :=
  if c then m else pure ()

/-- The value, or the error if there is none. -/
def expect (e : ε) : Option α → Script σ ε α
  | some a => pure a
  | none => fail e

/-- A run, or one that a kill ends after so many steps. -/
def cut (m : Script σ ε α) (kill : Option ℕ) (s : σ) : σ × Option (Except ε α) :=
  match kill with
  | none => (m.last s, some (m.result s))
  | some n => (((m.trail s).take n).getLastD s, none)

/-- One script after another, each of them cut or not. -/
def machine (script : ι → Script σ ε α) (s : σ) (i : ι × Option ℕ) :
    Option (σ × Option (Except ε α)) :=
  some ((script i.1).cut i.2 s)

/-- Killed anywhere the script leaves a state with `C`, and a value that it returns
satisfies `Q` in the state that it ends in. -/
def wp (m : Script σ ε α) (Q : α → σ → Prop) (C : σ → Prop) (s : σ) : Prop :=
  (∀ t ∈ s :: m.trail s, C t) ∧ ∀ a, m.result s = .ok a → Q a (m.last s)

/-! ### Symbolic runs -/

variable {m : Script σ ε α} {f : α → Script σ ε β} {Q : α → σ → Prop} {C : σ → Prop} {s : σ}

theorem last_mem (m : Script σ ε α) (s : σ) : m.last s ∈ s :: m.trail s := List.getLastD_mem_cons

theorem last_bind {a : α} (h : m.result s = .ok a) : (m >>= f).last s = (f a).last (m.last s) := by
  have htrail : (m >>= f).trail s = m.trail s ++ (f a).trail (m.last s) := by
    simp only [trail, bind, h]
  simp only [last, htrail, List.getLastD_eq_getLast?, List.getLast?_append]
  cases ((f a).trail ((m.trail s).getLast?.getD s)).getLast? with
  | none => rfl
  | some t => rfl

theorem wp_bind {Q : β → σ → Prop} :
    (m >>= f).wp Q C s ↔ m.wp (fun a t => (f a).wp Q C t) C s := by
  cases h : m.result s with
  | error e =>
    have htrail : (m >>= f).trail s = m.trail s := by simp only [trail, bind, h]
    have hresult : (m >>= f).result s = .error e := by
      simp only [bind, result]
      rw [show (m s).2 = .error e from h]
    simp [wp, htrail, hresult, h]
  | ok a =>
    have htrail : (m >>= f).trail s = m.trail s ++ (f a).trail (m.last s) := by
      simp only [trail, bind, h]
    have hresult : (m >>= f).result s = (f a).result (m.last s) := by
      simp only [bind, result]
      rw [show (m s).2 = .ok a from h]
    simp only [wp, htrail, hresult, last_bind h, h, Except.ok.injEq, List.mem_cons,
      List.mem_append]
    constructor
    · rintro ⟨hC, hQ⟩
      refine ⟨fun t ht => hC t (ht.imp_right Or.inl), ?_⟩
      rintro b rfl
      refine ⟨fun t ht => ?_, hQ⟩
      rcases ht with rfl | ht
      · exact hC _ ((List.mem_cons.mp (last_mem m s)).imp_right Or.inl)
      · exact hC t (Or.inr (Or.inr ht))
    · rintro ⟨hC, hQ⟩
      obtain ⟨hC', hQ'⟩ := hQ a rfl
      refine ⟨fun t ht => ?_, hQ'⟩
      rcases ht with ht | ht | ht
      · exact hC t (Or.inl ht)
      · exact hC t (Or.inr ht)
      · exact hC' t (Or.inr ht)

@[simp] theorem wp_pure {a : α} : (pure a : Script σ ε α).wp Q C s ↔ C s ∧ Q a s := by
  simp [wp, trail, result, last, pure]

@[simp] theorem wp_fail {e : ε} : (fail e : Script σ ε α).wp Q C s ↔ C s := by
  simp [wp, trail, result, fail]

@[simp] theorem wp_act {g : σ → σ} {Q : Unit → σ → Prop} :
    (act g : Script σ ε Unit).wp Q C s ↔ C s ∧ C (g s) ∧ Q () (g s) := by
  have hQ : (∀ a : Unit, True → Q a (g s)) ↔ Q () (g s) := ⟨fun h => h () trivial, fun h _ _ => h⟩
  simp only [wp, trail, result, last, act, List.mem_cons, List.not_mem_nil, or_false,
    forall_eq_or_imp, forall_eq, and_assoc, List.getLastD_cons, List.getLastD_nil, hQ]

@[simp] theorem wp_look {g : σ → α} : (look g : Script σ ε α).wp Q C s ↔ C s ∧ Q (g s) s := by
  simp [wp, trail, result, last, look]

theorem wp_require {c : Prop} [Decidable c] {e : ε} {Q : Unit → σ → Prop} :
    (require c e : Script σ ε Unit).wp Q C s ↔ C s ∧ (c → Q () s) := by
  unfold require
  split_ifs with h
  · simp [h]
  · simp [h]

theorem wp_when {c : Prop} [Decidable c] {m : Script σ ε Unit} {Q : Unit → σ → Prop} :
    (when c m).wp Q C s ↔ (c → m.wp Q C s) ∧ (¬ c → C s ∧ Q () s) := by
  unfold when
  split_ifs with h
  · simp [h]
  · simp [h]

theorem wp_ite {c : Prop} [Decidable c] {m m' : Script σ ε α} :
    (if c then m else m').wp Q C s ↔ (c → m.wp Q C s) ∧ (¬ c → m'.wp Q C s) := by
  split_ifs with h
  · simp [h]
  · simp [h]

theorem wp_expect {e : ε} {a : Option α} :
    (expect e a : Script σ ε α).wp Q C s ↔ C s ∧ ∀ b, a = some b → Q b s := by
  cases a with
  | none => simp [expect]
  | some a => simp [expect]

theorem wp.mono {Q' : α → σ → Prop} {C' : σ → Prop} (h : m.wp Q C s) (hQ : ∀ a t, Q a t → Q' a t)
    (hC : ∀ t, C t → C' t) : m.wp Q' C' s :=
  ⟨fun t ht => hC t (h.1 t ht), fun a ha => hQ a _ (h.2 a ha)⟩

theorem wp.and {Q' : α → σ → Prop} {C' : σ → Prop} (h : m.wp Q C s) (h' : m.wp Q' C' s) :
    m.wp (fun a t => Q a t ∧ Q' a t) (fun t => C t ∧ C' t) s :=
  ⟨fun t ht => ⟨h.1 t ht, h'.1 t ht⟩, fun a ha => ⟨h.2 a ha, h'.2 a ha⟩⟩

/-- A loop keeps what its body keeps. -/
theorem wp_forM {l : List β} {g : β → Script σ ε PUnit}
    (hg : ∀ b ∈ l, ∀ t, C t → (g b).wp (fun _ => C) C t) (hs : C s) :
    (l.forM g).wp (fun _ => C) C s := by
  induction l generalizing s with
  | nil => exact wp_pure.mpr ⟨hs, hs⟩
  | cons b l ih =>
    refine wp_bind.mpr ?_
    exact (hg b (by simp) s hs).mono
      (fun _ t ht => ih (fun c hc => hg c (List.mem_cons_of_mem _ hc)) ht) fun _ ht => ht

/-! ### Invariants -/

/-- What holds before the script holds wherever it is killed, and after it. -/
def Keeps (Inv : σ → Prop) (m : Script σ ε α) : Prop := ∀ s, Inv s → m.wp (fun _ => Inv) Inv s

variable {Inv : σ → Prop}

theorem Keeps.wp (h : m.Keeps Inv) (hs : Inv s) : m.wp (fun _ => Inv) Inv s := h s hs

theorem keeps_pure (a : α) : Keeps Inv (pure a : Script σ ε α) := fun _ h => wp_pure.mpr ⟨h, h⟩

theorem keeps_fail (e : ε) : Keeps Inv (fail e : Script σ ε α) := fun _ h => wp_fail.mpr h

theorem keeps_look (g : σ → α) : Keeps Inv (look g : Script σ ε α) :=
  fun _ h => wp_look.mpr ⟨h, h⟩

theorem keeps_act {g : σ → σ} (hg : ∀ s, Inv s → Inv (g s)) :
    Keeps Inv (act g : Script σ ε Unit) :=
  fun s h => wp_act.mpr ⟨h, hg s h, hg s h⟩

theorem keeps_require (c : Prop) [Decidable c] (e : ε) :
    Keeps Inv (require c e : Script σ ε Unit) :=
  fun _ h => wp_require.mpr ⟨h, fun _ => h⟩

theorem keeps_expect (e : ε) (a : Option α) : Keeps Inv (expect e a : Script σ ε α) :=
  fun _ h => wp_expect.mpr ⟨h, fun _ _ => h⟩

theorem Keeps.when {m : Script σ ε Unit} (h : m.Keeps Inv) (c : Prop) [Decidable c] :
    Keeps Inv (when c m) :=
  fun s hs => wp_when.mpr ⟨fun _ => h s hs, fun _ => ⟨hs, hs⟩⟩

theorem Keeps.bind (h : m.Keeps Inv) (hf : ∀ a, (f a).Keeps Inv) : Keeps Inv (m >>= f) :=
  fun s hs => wp_bind.mpr ((h s hs).mono (fun a t ht => hf a t ht) fun _ ht => ht)

/-! ### Runs to the end -/

/-- The script returns the value, and leaves the state. -/
def Returns (m : Script σ ε α) (s : σ) (a : α) (t : σ) : Prop :=
  m.result s = .ok a ∧ m.last s = t

theorem Returns.bind {a : α} {b : β} {t u : σ} (h : m.Returns s a t) (hf : (f a).Returns t b u) :
    (m >>= f).Returns s b u := by
  obtain ⟨hresult, rfl⟩ := h
  refine ⟨?_, (last_bind hresult).trans hf.2⟩
  rw [← hf.1]
  simp only [Bind.bind, result]
  rw [show (m s).2 = .ok a from hresult]

theorem Returns.result_bind {a : α} {t : σ} (h : m.Returns s a t) :
    (m >>= f).result s = (f a).result t := by
  obtain ⟨hresult, rfl⟩ := h
  simp only [Bind.bind, result]
  rw [show (m s).2 = .ok a from hresult]

theorem result_bind_error {e : ε} (h : m.result s = .error e) :
    (m >>= f).result s = .error e := by
  simp only [Bind.bind, result]
  rw [show (m s).2 = .error e from h]

theorem returns_pure (a : α) (s : σ) : (pure a : Script σ ε α).Returns s a s := ⟨rfl, rfl⟩

theorem returns_act (g : σ → σ) (s : σ) : (act g : Script σ ε Unit).Returns s () (g s) := ⟨rfl, rfl⟩

theorem returns_look (g : σ → α) (s : σ) : (look g : Script σ ε α).Returns s (g s) s := ⟨rfl, rfl⟩

theorem require_bind {c : Prop} [Decidable c] (h : c) (e : ε) (g : Unit → Script σ ε β) :
    (require c e >>= g) = g () := by
  rw [require, if_pos h]
  rfl

theorem returns_expect (e : ε) (a : α) (s : σ) :
    (expect e (some a) : Script σ ε α).Returns s a s := returns_pure a s

theorem result_require {c : Prop} [Decidable c] (h : ¬ c) (e : ε) (s : σ) :
    (require c e : Script σ ε Unit).result s = .error e := by
  rw [require, if_neg h]
  rfl

theorem returns_forM {l : List β} (g : β → σ → σ) (s : σ) :
    (l.forM fun b => (act (g b) : Script σ ε Unit)).Returns s ()
      (l.foldl (fun t b => g b t) s) := by
  induction l generalizing s with
  | nil => exact returns_pure () s
  | cons b l ih => exact (returns_act (g b) s).bind (ih (g b s))

theorem Returns.cut {a : α} {t : σ} (h : m.Returns s a t) : m.cut none s = (t, some (.ok a)) := by
  rw [Script.cut, h.1, h.2]

/-- The trail of a script begins with that of its first part. -/
theorem trail_first (m : Script σ ε α) (f : α → Script σ ε β) (s : σ) :
    m.trail s <+: (m >>= f).trail s := by
  cases h : m.result s with
  | error e => simp [trail, bind, h]
  | ok a => simp [trail, bind, h]

theorem Returns.trail_bind {a : α} {t : σ} (h : m.Returns s a t) :
    (m >>= f).trail s = m.trail s ++ (f a).trail t := by
  obtain ⟨hresult, rfl⟩ := h
  simp only [trail, Bind.bind, hresult]

/-! ### Kills -/

/-- Cut or not, it leaves one of the states that it passes through. -/
theorem cut_mem (m : Script σ ε α) (kill : Option ℕ) (s : σ) :
    (m.cut kill s).1 ∈ s :: m.trail s := by
  cases kill with
  | none => exact last_mem m s
  | some n => exact List.cons_subset_cons s (List.take_subset n _) List.getLastD_mem_cons

theorem wp.cut (h : m.wp Q C s) (kill : Option ℕ) : C (m.cut kill s).1 := h.1 _ (cut_mem m kill s)

/-- What a cut run returns. -/
theorem wp.returned (h : m.wp Q C s) {kill : Option ℕ} {t : σ} {a : α}
    (hcut : m.cut kill s = (t, some (.ok a))) : Q a t := by
  cases kill with
  | none =>
    obtain ⟨rfl, hresult⟩ := Prod.mk.inj hcut
    exact h.2 a (Option.some.inj hresult)
  | some n => cases (Prod.mk.inj hcut).2

/-- An invariant of every state that the scripts pass through holds after any run of them,
wherever they are killed, if each is run where it keeps the invariant. -/
theorem machine_invariant {script : ι → Script σ ε α} {Inv : σ → Prop} {P : σ → ι → Prop}
    (hscript : ∀ {s i}, P s i → Inv s → (script i).wp (fun _ _ => True) Inv s) {s t : σ}
    {is : List (ι × Option ℕ)} {os : List (Option (Except ε α))} (hs : Inv s)
    (hP : EachStep (machine script) (fun s i => P s i.1) s is)
    (hx : exec (machine script) s is = some (t, os)) : Inv t := by
  refine hP.invariant (fun {s i s' o} hinv hi h => ?_) hs hx
  obtain ⟨rfl, -⟩ := Prod.mk.inj (Option.some.inj h)
  exact (hscript hi hinv).cut i.2

/-- What each of the scripts returns in such a run. -/
theorem machine_returned {script : ι → Script σ ε α} {Inv : σ → Prop} {P : σ → ι → Prop}
    {Q : ι → α → Prop}
    (hscript : ∀ {s i}, P s i → Inv s → (script i).wp (fun a _ => Q i a) Inv s) {s t : σ}
    {is : List (ι × Option ℕ)} {os : List (Option (Except ε α))} (hs : Inv s)
    (hP : EachStep (machine script) (fun s i => P s i.1) s is)
    (hx : exec (machine script) s is = some (t, os)) {i : ι × Option ℕ} {a : α}
    (hmem : (i, some (.ok a)) ∈ is.zip os) : Q i.1 a := by
  induction is generalizing s os with
  | nil => simp at hmem
  | cons j is ih =>
    obtain ⟨s', o, os', hone, hrest, rfl⟩ := exec_cons_iff.mp hx
    obtain ⟨hj, hP'⟩ := (eachStep_cons_iff hone).mp hP
    have hcut := Option.some.inj hone
    have hwp := hscript hj hs
    rw [List.zip_cons_cons, List.mem_cons] at hmem
    rcases hmem with heq | hmem
    · obtain ⟨rfl, rfl⟩ := Prod.mk.inj heq
      exact hwp.returned hcut
    · have h := hwp.cut j.2
      rw [hcut] at h
      exact ih h hP' hrest hmem

end Script
