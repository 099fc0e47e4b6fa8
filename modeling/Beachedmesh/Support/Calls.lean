import Beachedmesh.Support.Script

/-!
# Scripts that call on their surroundings

The state is the log of the calls made so far, each with what it returned, and the
surroundings answer from the log: they may do anything, and a property of the log is one of
what the script did. A loop that may go on for ever has a number of rounds; what it
returns within them is bounded by a variant.
-/
namespace Script

section Loops

variable {σ ε α β : Type} {m : Script σ ε α} {f : α → Script σ ε β} {Q : α → σ → Prop}
  {C : σ → Prop} {s : σ} {running : ε} {body : β → Script σ ε (β ⊕ α)} {I : β → σ → Prop}

/-- The body until it returns a value; after so many rounds the loop is still running. -/
def loop (running : ε) (body : β → Script σ ε (β ⊕ α)) : ℕ → β → Script σ ε α
  | 0, _ => fail running
  | fuel + 1, b => body b >>= Sum.elim (loop running body fuel) pure

theorem wp_loop (hI : ∀ b t, I b t → C t)
    (hbody : ∀ b t, I b t → (body b).wp (fun r u => Sum.elim (I · u) (Q · u) r) C t)
    (hQ : ∀ a t, Q a t → C t) {fuel : ℕ} {b : β} (h : I b s) :
    (loop running body fuel b).wp Q C s := by
  induction fuel generalizing b s with
  | zero => exact wp_fail.mpr (hI b s h)
  | succ fuel ih =>
    refine wp_bind.mpr ((hbody b s h).mono (fun r t hr => ?_) fun _ ht => ht)
    cases r with
    | inl b' => exact ih hr
    | inr a => exact wp_pure.mpr ⟨hQ a t hr, hr⟩

/-- The script returns a value, with `Q` in the state that it ends in. -/
def Ends (m : Script σ ε α) (Q : α → σ → Prop) (s : σ) : Prop :=
  ∃ a t, m.Returns s a t ∧ Q a t

theorem ends_pure {a : α} (h : Q a s) : (pure a : Script σ ε α).Ends Q s :=
  ⟨a, s, returns_pure a s, h⟩

theorem ends_act {g : σ → σ} {Q : Unit → σ → Prop} (h : Q () (g s)) :
    (act g : Script σ ε Unit).Ends Q s :=
  ⟨(), g s, returns_act g s, h⟩

theorem ends_look {g : σ → α} (h : Q (g s) s) : (look g : Script σ ε α).Ends Q s :=
  ⟨g s, s, returns_look g s, h⟩

theorem Ends.bind {Q : β → σ → Prop} (h : m.Ends (fun a t => (f a).Ends Q t) s) :
    (m >>= f).Ends Q s := by
  obtain ⟨a, t, hm, b, u, hf, hQ⟩ := h
  exact ⟨b, u, hm.bind hf, hQ⟩

theorem Ends.mono {Q' : α → σ → Prop} (h : m.Ends Q s) (hQ : ∀ a t, Q a t → Q' a t) :
    m.Ends Q' s := by
  obtain ⟨a, t, hm, ha⟩ := h
  exact ⟨a, t, hm, hQ a t ha⟩

/-- A loop ends within as many rounds as its variant allows. -/
theorem ends_loop {v : β → σ → ℕ}
    (hbody : ∀ b t, I b t → (body b).Ends
      (fun r u => Sum.elim (fun b' => I b' u ∧ v b' u < v b t) (Q · u) r) t)
    {fuel : ℕ} {b : β} (h : I b s) (hv : v b s < fuel) :
    (loop running body fuel b).Ends Q s := by
  induction fuel generalizing b s with
  | zero => exact absurd hv (Nat.not_lt_zero _)
  | succ fuel ih =>
    refine ((hbody b s h).mono fun r t hr => ?_).bind
    cases r with
    | inl b' => exact ih hr.1 (by have := hr.2; omega)
    | inr a => exact ends_pure hr

end Loops

section Logs

variable {κ ε α β : Type} {P : κ → Prop} {l : List κ} {Q : α → List κ → Prop}
  {C : List κ → Prop}

/-- A call: the surroundings answer, and the call goes into the log with its answer. -/
def ask (answer : List κ → α) (record : α → κ) : Script (List κ) ε α := do
  let a ← look answer
  act (· ++ [record a])
  pure a

@[simp] theorem wp_ask {answer : List κ → α} {record : α → κ} :
    (ask answer record : Script (List κ) ε α).wp Q C l ↔
      C l ∧ C (l ++ [record (answer l)]) ∧ Q (answer l) (l ++ [record (answer l)]) := by
  simp only [ask, wp_bind, wp_look, wp_act, wp_pure]
  tauto

theorem ends_ask {answer : List κ → α} {record : α → κ}
    (h : Q (answer l) (l ++ [record (answer l)])) :
    (ask answer record : Script (List κ) ε α).Ends Q l := by
  refine Ends.bind (ends_look ?_)
  exact Ends.bind (ends_act (ends_pure h))

/-- The log has grown by calls that all satisfy `P`. -/
def Grown (P : κ → Prop) (l t : List κ) : Prop := ∃ more, t = l ++ more ∧ ∀ c ∈ more, P c

theorem Grown.refl (P : κ → Prop) (l : List κ) : Grown P l l := ⟨[], by simp, by simp⟩

theorem Grown.trans {t u : List κ} (h : Grown P l t) (h' : Grown P t u) : Grown P l u := by
  obtain ⟨m, rfl, hm⟩ := h
  obtain ⟨m', rfl, hm'⟩ := h'
  refine ⟨m ++ m', List.append_assoc _ _ _, fun c hc => ?_⟩
  exact (List.mem_append.mp hc).elim (hm c) (hm' c)

theorem Grown.mono {P' : κ → Prop} {t : List κ} (h : Grown P l t) (hP : ∀ c, P c → P' c) :
    Grown P' l t := by
  obtain ⟨more, rfl, hmore⟩ := h
  exact ⟨more, rfl, fun c hc => hP c (hmore c hc)⟩

/-- Such calls do not count where none of them does. -/
theorem Grown.countP_eq {p : κ → Bool} {t : List κ} (h : Grown P l t)
    (hp : ∀ c, P c → p c = false) : t.countP p = l.countP p := by
  obtain ⟨more, rfl, hmore⟩ := h
  have hzero : more.countP p = 0 := List.countP_eq_zero.mpr fun c hc => by simp [hp c (hmore c hc)]
  rw [List.countP_append, hzero, Nat.add_zero]

theorem grown_concat {c : κ} (h : P c) : Grown P l (l ++ [c]) :=
  ⟨[c], rfl, fun _ hd => List.mem_singleton.mp hd ▸ h⟩

/-- Killed or not, the script makes none but such calls. -/
def Calls (P : κ → Prop) (m : Script (List κ) ε α) : Prop :=
  ∀ l, m.wp (fun _ => Grown P l) (Grown P l) l

theorem calls_pure (a : α) : Calls P (pure a : Script (List κ) ε α) :=
  fun l => wp_pure.mpr ⟨Grown.refl P l, Grown.refl P l⟩

theorem calls_fail (e : ε) : Calls P (fail e : Script (List κ) ε α) :=
  fun l => wp_fail.mpr (Grown.refl P l)

theorem calls_look (g : List κ → α) : Calls P (look g : Script (List κ) ε α) :=
  fun l => wp_look.mpr ⟨Grown.refl P l, Grown.refl P l⟩

theorem calls_ask {answer : List κ → α} {record : α → κ} (h : ∀ a, P (record a)) :
    Calls P (ask answer record : Script (List κ) ε α) :=
  fun l => wp_ask.mpr ⟨Grown.refl P l, grown_concat (h _), grown_concat (h _)⟩

theorem calls_expect (e : ε) (a : Option α) :
    Calls P (expect e a : Script (List κ) ε α) :=
  fun l => wp_expect.mpr ⟨Grown.refl P l, fun _ _ => Grown.refl P l⟩

theorem Calls.mono {P' : κ → Prop} {m : Script (List κ) ε α} (h : m.Calls P)
    (hP : ∀ c, P c → P' c) : m.Calls P' :=
  fun l => (h l).mono (fun _ _ ht => ht.mono hP) fun _ ht => ht.mono hP

theorem Calls.bind {m : Script (List κ) ε α} {f : α → Script (List κ) ε β} (h : m.Calls P)
    (hf : ∀ a, (f a).Calls P) : Calls P (m >>= f) := by
  intro l
  refine wp_bind.mpr ((h l).mono (fun a t ht => ?_) fun _ ht => ht)
  exact (hf a t).mono (fun _ _ hu => ht.trans hu) fun _ hu => ht.trans hu

theorem Calls.ite {m m' : Script (List κ) ε α} {c : Prop} [Decidable c] (h : m.Calls P)
    (h' : m'.Calls P) : Calls P (if c then m else m') := by
  split_ifs
  · exact h
  · exact h'

theorem Calls.loop {running : ε} {body : β → Script (List κ) ε (β ⊕ α)}
    (h : ∀ b, (body b).Calls P) (fuel : ℕ) (b : β) : Calls P (loop running body fuel b) := by
  induction fuel generalizing b with
  | zero => exact calls_fail running
  | succ fuel ih => exact (h b).bind fun r => r.casesOn ih calls_pure

/-! ### What came before a call -/

/-- The log had `G` whenever a call in `U` was made. -/
def Guarded (U : κ → Bool) (G : List κ → Prop) (l : List κ) : Prop :=
  ∀ pre c post, l = pre ++ c :: post → U c = true → G pre

variable {U : κ → Bool} {G : List κ → Prop}

theorem guarded_nil : Guarded U G [] := by
  intro pre c post h
  simp at h

theorem guarded_concat {c : κ} :
    Guarded U G (l ++ [c]) ↔ Guarded U G l ∧ (U c = true → G l) := by
  constructor
  · intro h
    refine ⟨fun pre d post heq hd => h pre d (post ++ [c]) ?_ hd, h l c [] rfl⟩
    rw [heq, List.append_assoc, List.cons_append]
  · rintro ⟨h, hc⟩ pre d post heq hd
    rcases List.eq_nil_or_concat post with rfl | ⟨post', e, rfl⟩
    · obtain ⟨rfl, hlast⟩ := List.append_inj' heq rfl
      obtain rfl := List.singleton_inj.mp hlast
      exact hc hd
    · rw [List.concat_eq_append, ← List.cons_append, ← List.append_assoc] at heq
      exact h pre d post' (List.append_inj' heq rfl).1 hd

theorem Guarded.grown {t : List κ} (h : Guarded U G l) (hgrown : Grown P l t)
    (hP : ∀ c, P c → U c = false) : Guarded U G t := by
  obtain ⟨more, rfl, hmore⟩ := hgrown
  induction more generalizing l with
  | nil => rwa [List.append_nil]
  | cons c more ih =>
    rw [← List.singleton_append, ← List.append_assoc]
    refine ih (guarded_concat.mpr ⟨h, fun hc => ?_⟩) fun d hd => hmore d (List.mem_cons_of_mem c hd)
    rw [hP c (hmore c (by simp))] at hc
    cases hc

theorem Guarded.mono {G' : List κ → Prop} (h : Guarded U G l) (hG : ∀ pre, G pre → G' pre) :
    Guarded U G' l :=
  fun pre c post heq hc => hG pre (h pre c post heq hc)

theorem Guarded.append {more : List κ} (h : Guarded U G l)
    (hmore : Guarded U (fun pre => G (l ++ pre)) more) : Guarded U G (l ++ more) := by
  induction more using List.reverseRecOn with
  | nil => rwa [List.append_nil]
  | append_singleton more c ih =>
    obtain ⟨hbefore, hc⟩ := guarded_concat.mp hmore
    rw [← List.append_assoc]
    exact guarded_concat.mpr ⟨ih hbefore, hc⟩

/-! ### What comes after a call -/

/-- The last call does not bind what comes next. -/
def Settled (F : κ → κ → Prop) (l : List κ) : Prop := ∀ c ∈ l.getLast?, ∀ d, F c d

variable {F : κ → κ → Prop}

theorem settled_nil : Settled F [] := fun c hc => by simp at hc

theorem settled_append {more : List κ} (hne : more ≠ []) :
    Settled F (l ++ more) ↔ Settled F more := by
  rw [Settled, Settled, List.getLast?_append_of_ne_nil l hne]

theorem Settled.grown {t : List κ} (h : Settled F l) (hgrown : Grown P l t)
    (hP : ∀ c, P c → ∀ d, F c d) : Settled F t := by
  obtain ⟨more, rfl, hmore⟩ := hgrown
  rcases eq_or_ne more [] with rfl | hne
  · rwa [List.append_nil]
  · exact (settled_append hne).mpr fun c hc => hP c (hmore c (List.mem_of_getLast? hc))

theorem Settled.isChain_append {more : List κ} (h : Settled F l) (hl : l.IsChain F)
    (hmore : more.IsChain F) : (l ++ more).IsChain F :=
  List.isChain_append.mpr ⟨hl, hmore, fun c hc d _ => h c hc d⟩

theorem Settled.isChain_grown {t : List κ} (h : Settled F l) (hl : l.IsChain F)
    (hgrown : Grown P l t) (hP : ∀ c, P c → ∀ d, F c d) : t.IsChain F := by
  obtain ⟨more, rfl, hmore⟩ := hgrown
  refine h.isChain_append hl (List.isChain_iff_forall_rel_of_append_cons_cons.mpr ?_)
  intro c d before after heq
  exact hP c (hmore c (by simp [heq])) d

/-! ### Ends that cost something -/

/-- From any log that continues `l₀` the script ends, with `R` between the logs. -/
def After (l₀ : List κ) (m : Script (List κ) ε α) (R : α → List κ → List κ → Prop) : Prop :=
  ∀ t, l₀ <+: t → m.Ends (fun a u => t <+: u ∧ R a t u) t

variable {l₀ : List κ} {R R' : α → List κ → List κ → Prop}

theorem after_pure {a : α} (h : ∀ t, l₀ <+: t → R a t t) :
    After l₀ (pure a : Script (List κ) ε α) R :=
  fun t ht => ends_pure ⟨List.prefix_refl t, h t ht⟩

theorem after_write {c : κ} {R : Unit → List κ → List κ → Prop}
    (h : ∀ t, l₀ <+: t → R () t (t ++ [c])) :
    After l₀ (act (· ++ [c]) : Script (List κ) ε Unit) R :=
  fun t ht => ends_act ⟨List.prefix_append t _, h t ht⟩

theorem after_ask {answer : List κ → α} {record : α → κ}
    (h : ∀ t, l₀ <+: t → R (answer t) t (t ++ [record (answer t)])) :
    After l₀ (ask answer record : Script (List κ) ε α) R :=
  fun t ht => ends_ask ⟨List.prefix_append t _, h t ht⟩

theorem After.mono {m : Script (List κ) ε α} (h : After l₀ m R)
    (hR : ∀ a t u, l₀ <+: t → t <+: u → R a t u → R' a t u) : After l₀ m R' :=
  fun t ht => (h t ht).mono fun a u hu => ⟨hu.1, hR a t u ht hu.1 hu.2⟩

theorem After.bind {m : Script (List κ) ε α} {f : α → Script (List κ) ε β}
    {R' : β → List κ → List κ → Prop} (h : After l₀ m R)
    (hf : ∀ a t, l₀ <+: t → ∀ u, t <+: u → R a t u →
      (f a).Ends (fun b v => u <+: v ∧ R' b t v) u) : After l₀ (m >>= f) R' := by
  refine fun t ht => ((h t ht).mono fun a u hu => ?_).bind
  exact (hf a t ht u hu.1 hu.2).mono fun b v hv => ⟨hu.1.trans hv.1, hv.2⟩

end Logs

end Script
