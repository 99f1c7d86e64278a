import Mathlib.Data.List.Forall2
import Mathlib.Tactic.Common

/-! Partial state machines with outputs and transition systems: runs, invariants
and simulations. -/
namespace Machine

/-- `Except` computations, taken apart at a bind. -/
theorem bind_ok {ε α β : Type} {x : Except ε α} {f : α → Except ε β} {b : β} :
    x >>= f = .ok b ↔ ∃ a, x = .ok a ∧ f a = .ok b := by
  cases x <;> simp [bind, Except.bind]

theorem bind_error {ε α β : Type} {x : Except ε α} {f : α → Except ε β} {e : ε} :
    x >>= f = .error e ↔ x = .error e ∨ ∃ a, x = .ok a ∧ f a = .error e := by
  cases x <;> simp [bind, Except.bind]

theorem pure_ok {ε α : Type} {a b : α} : (pure a : Except ε α) = .ok b ↔ a = b :=
  ⟨fun h => Except.ok.inj h, fun h => congrArg _ h⟩

theorem pure_ne_error {ε α : Type} {a : α} {e : ε} : ¬ (pure a : Except ε α) = .error e :=
  fun h => by cases h

variable {σ τ ι ω ε : Type}

/-- Feeds the inputs one after the other, up to the first fault. -/
def run (step : σ → ι → Except ε (ω × σ)) : σ → List ι → Except ε (List ω × σ)
  | s, [] => .ok ([], s)
  | s, a :: as =>
    match step s a with
    | .error e => .error e
    | .ok (o, t) =>
      match run step t as with
      | .error e => .error e
      | .ok (os, u) => .ok (o :: os, u)

variable {step : σ → ι → Except ε (ω × σ)} {s u : σ} {a : ι} {as : List ι} {os : List ω}

@[simp] theorem run_nil : run step s [] = .ok ([], s) := rfl

theorem run_cons_ok (h : run step s (a :: as) = .ok (os, u)) :
    ∃ o t os', step s a = .ok (o, t) ∧ run step t as = .ok (os', u) ∧ os = o :: os' := by
  simp only [run] at h
  cases hs : step s a with
  | error e => simp [hs] at h
  | ok p =>
    obtain ⟨o, t⟩ := p
    cases hr : run step t as with
    | error e => simp [hs, hr] at h
    | ok q =>
      obtain ⟨os', u'⟩ := q
      simp only [hs, hr, Except.ok.injEq, Prod.mk.injEq] at h
      exact ⟨o, t, os', rfl, by rw [hr, h.2], h.1.symm⟩

theorem run_append {t : σ} {bs : List ι} {os' : List ω} (h : run step s as = .ok (os, t))
    (h' : run step t bs = .ok (os', u)) : run step s (as ++ bs) = .ok (os ++ os', u) := by
  induction as generalizing s os with
  | nil =>
    simp only [run_nil, Except.ok.injEq, Prod.mk.injEq] at h
    obtain ⟨rfl, rfl⟩ := h
    exact h'
  | cons a as ih =>
    obtain ⟨o, v, os₀, ha, hr, rfl⟩ := run_cons_ok h
    simp only [List.cons_append, run, ha, ih hr]

/-- What every step preserves holds at the end of every run. -/
theorem run_invariant {Inv : σ → Prop}
    (hstep : ∀ s a o t, Inv s → step s a = .ok (o, t) → Inv t)
    (hs : Inv s) (h : run step s as = .ok (os, u)) : Inv u := by
  induction as generalizing s os with
  | nil =>
    simp only [run_nil, Except.ok.injEq, Prod.mk.injEq] at h
    exact h.2 ▸ hs
  | cons a as ih =>
    obtain ⟨o, t, os', ha, hr, _⟩ := run_cons_ok h
    exact ih (hstep s a o t hs ha) hr

/-- Every step the run takes meets `Ok` in the state it is taken from. -/
def Along (step : σ → ι → Except ε (ω × σ)) (Ok : σ → ι → Prop) : σ → List ι → Prop
  | _, [] => True
  | s, a :: as => Ok s a ∧ ∀ o t, step s a = .ok (o, t) → Along step Ok t as

theorem along_of_forall {Ok : σ → ι → Prop} (h : ∀ a ∈ as, ∀ s, Ok s a) : Along step Ok s as := by
  induction as generalizing s with
  | nil => trivial
  | cons a as ih =>
    obtain ⟨ha, has⟩ := List.forall_mem_cons.mp h
    exact ⟨ha s, fun _ _ _ => ih has⟩

/-- As `run_invariant`, for steps that preserve `Inv` under a condition only. -/
theorem run_invariant_along {Inv : σ → Prop} {Ok : σ → ι → Prop}
    (hstep : ∀ s a o t, Inv s → Ok s a → step s a = .ok (o, t) → Inv t)
    (hs : Inv s) (hok : Along step Ok s as) (h : run step s as = .ok (os, u)) : Inv u := by
  induction as generalizing s os with
  | nil =>
    simp only [run_nil, Except.ok.injEq, Prod.mk.injEq] at h
    exact h.2 ▸ hs
  | cons a as ih =>
    obtain ⟨o, t, os', ha, hr, _⟩ := run_cons_ok h
    exact ih (hstep s a o t hs hok.1 ha) (hok.2 o t ha) hr

/-- What the steps of a run cost together, each in the state it is taken from. -/
def total (step : σ → ι → Except ε (ω × σ)) (cost : σ → ι → ℕ) : σ → List ι → ℕ
  | _, [] => 0
  | s, a :: as =>
    cost s a + match step s a with
      | .error _ => 0
      | .ok (_, t) => total step cost t as

/-- A measure to which each step adds its cost grows by the total. -/
theorem run_total {Inv : σ → Prop} {μ : σ → ℕ} {cost : σ → ι → ℕ}
    (hstep : ∀ s a o t, Inv s → step s a = .ok (o, t) → Inv t ∧ μ t = μ s + cost s a)
    (hs : Inv s) (h : run step s as = .ok (os, u)) : μ u = μ s + total step cost s as := by
  induction as generalizing s os with
  | nil =>
    simp only [run_nil, Except.ok.injEq, Prod.mk.injEq] at h
    rw [← h.2]
    rfl
  | cons a as ih =>
    obtain ⟨o, t, os', ha, hr, _⟩ := run_cons_ok h
    obtain ⟨ht, hμ⟩ := hstep s a o t hs ha
    simp only [total, ha]
    rw [ih ht hr, hμ, Nat.add_assoc]

/-- The run of a total function: all outputs and the last state. -/
def iterate (f : τ → ι → ω × τ) : τ → List ι → List ω × τ
  | t, [] => ([], t)
  | t, a :: as => ((f t a).1 :: (iterate f (f t a).2 as).1, (iterate f (f t a).2 as).2)

/-- A step-wise simulation of a total function: under the condition `Ok` the run
reaches its end, with the outputs of the function. -/
theorem run_simulates {R : σ → τ → Prop} {Ok : σ → ι → Prop} {f : τ → ι → ω × τ}
    (hsim : ∀ s t a, R s t → Ok s a → ∃ s', step s a = .ok ((f t a).1, s') ∧ R s' (f t a).2)
    {t : τ} (hr : R s t) (hok : Along step Ok s as) :
    ∃ u, run step s as = .ok ((iterate f t as).1, u) ∧ R u (iterate f t as).2 := by
  induction as generalizing s t with
  | nil => exact ⟨s, rfl, hr⟩
  | cons a as ih =>
    obtain ⟨s', ha, hr'⟩ := hsim s t a hr hok.1
    obtain ⟨u, hu, hru⟩ := ih hr' (hok.2 _ s' ha)
    refine ⟨u, ?_, hru⟩
    simp [run, ha, hu, iterate]

/-- A step-wise simulation of one machine by another, which need not give the same outputs. -/
theorem run_related {ω' κ : Type} {step' : τ → κ → Except ε (ω' × τ)} {R : σ → τ → Prop} {g : ι → κ}
    (hsim : ∀ s t a o s', R s t → step s a = .ok (o, s') →
      ∃ o' t', step' t (g a) = .ok (o', t') ∧ R s' t')
    {t : τ} (hr : R s t) (h : run step s as = .ok (os, u)) :
    ∃ os' v, run step' t (as.map g) = .ok (os', v) ∧ R u v := by
  induction as generalizing s t os with
  | nil =>
    simp only [run_nil, Except.ok.injEq, Prod.mk.injEq] at h
    obtain ⟨-, rfl⟩ := h
    exact ⟨[], t, rfl, hr⟩
  | cons a as ih =>
    obtain ⟨o, s', os', ha, hrun, -⟩ := run_cons_ok h
    obtain ⟨o', t', ha', hr'⟩ := hsim s t a o s' hr ha
    obtain ⟨os'', v, hv, hrv⟩ := ih hr' hrun
    exact ⟨o' :: os'', v, by simp [run, ha', hv], hrv⟩

/-- The steps of a labelled transition system, one after the other. -/
inductive Trace (Step : σ → ι → σ → Prop) : σ → List ι → σ → Prop
  | refl {s : σ} : Trace Step s [] s
  | step {s t u : σ} {a : ι} {as : List ι} :
    Step s a t → Trace Step t as u → Trace Step s (a :: as) u

theorem Trace.append {Step : σ → ι → σ → Prop} {s t u : σ} {as bs : List ι}
    (h : Trace Step s as t) (h' : Trace Step t bs u) : Trace Step s (as ++ bs) u := by
  induction h with
  | refl => exact h'
  | step hs _ ih => exact .step hs (ih h')

/-- The steps up to a state that has no next one. -/
inductive Completes (next : σ → Except ε (Option σ)) : σ → σ → Prop
  | done {s : σ} : next s = .ok none → Completes next s s
  | step {s t u : σ} : next s = .ok (some t) → Completes next t u → Completes next s u

theorem Completes.unique {next : σ → Except ε (Option σ)} {s t u : σ}
    (h : Completes next s t) (h' : Completes next s u) : t = u := by
  induction h with
  | done hs =>
    cases h' with
    | done _ => rfl
    | step hs' _ => cases hs.symm.trans hs'
  | step hs _ ih =>
    cases h' with
    | done hs' => cases hs.symm.trans hs'
    | step hs' h' =>
      obtain rfl := Option.some.inj (Except.ok.inj (hs.symm.trans hs'))
      exact ih h'

/-- A fold whose steps only add to the state what each item gives by itself. `Inv` is what
the steps may rely on to find the same for any state. -/
theorem foldlM_adds {α β : Type} {step : σ → α → Except ε σ} {f : α → Except ε β}
    {add : σ → β → σ} (Inv : σ → Prop) (hstep : ∀ s a, Inv s → step s a = (f a).map (add s))
    (hadd : ∀ s b, Inv s → Inv (add s b)) {items : List α} {s r : σ} (hs : Inv s) :
    items.foldlM step s = .ok r ↔
      ∃ outs, List.Forall₂ (fun a b => f a = .ok b) items outs ∧ r = outs.foldl add s := by
  induction items generalizing s with
  | nil =>
    rw [List.foldlM_nil, pure_ok]
    simp [eq_comm]
  | cons a as ih =>
    rw [List.foldlM_cons, bind_ok]
    simp only [hstep s a hs]
    constructor
    · rintro ⟨t, ht, hr⟩
      cases hf : f a with
      | error e => simp [hf, Except.map] at ht
      | ok b =>
        obtain rfl : add s b = t := by simpa [hf, Except.map] using ht
        obtain ⟨outs, ho, rfl⟩ := (ih (hadd s b hs)).mp hr
        exact ⟨b :: outs, .cons hf ho, rfl⟩
    · rintro ⟨outs, ho, rfl⟩
      cases ho with
      | cons hf ho =>
        refine ⟨_, by rw [hf]; rfl, (ih (hadd s _ hs)).mpr ⟨_, ho, rfl⟩⟩

theorem exists_right_of_forall₂ {α β : Type} {R : α → β → Prop} {as : List α} {bs : List β}
    (h : List.Forall₂ R as bs) {a : α} (ha : a ∈ as) : ∃ b ∈ bs, R a b := by
  induction h with
  | nil => cases ha
  | cons hr _ ih =>
    rcases List.mem_cons.mp ha with rfl | ha
    · exact ⟨_, List.mem_cons_self, hr⟩
    · obtain ⟨b, hb, hr⟩ := ih ha
      exact ⟨b, List.mem_cons_of_mem _ hb, hr⟩

theorem exists_left_of_forall₂ {α β : Type} {R : α → β → Prop} {as : List α} {bs : List β}
    (h : List.Forall₂ R as bs) {b : β} (hb : b ∈ bs) : ∃ a ∈ as, R a b :=
  exists_right_of_forall₂ h.flip hb

theorem flatMap_of_forall₂ {α β γ : Type} {R : α → β → Prop} {as : List α} {bs : List β}
    (h : List.Forall₂ R as bs) {f : α → List γ} {g : β → List γ}
    (hfg : ∀ a b, R a b → g b = f a) : bs.flatMap g = as.flatMap f := by
  induction h with
  | nil => rfl
  | cons hr _ ih => rw [List.flatMap_cons, List.flatMap_cons, ih, hfg _ _ hr]

end Machine
