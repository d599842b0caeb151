import Mathlib.Data.List.Forall2

/-! Deterministic machines whose steps may fault. A run ends at its first fault: a faulting step
has no successor state, and invariants are about the states before it. Conditions on steps are
imposed by restricting the machine, so a run of the restricted machine is a run of the machine
all of whose steps meet the condition. -/

namespace FaultMachine

/-! ### Outcomes of a fallible computation -/

section Outcome

variable {φ α β : Type}

/-- A fallible computation either succeeds with a value satisfying `Q`, or faults as `E` allows. -/
inductive Outcome (E : φ → Prop) (Q : α → Prop) : Except φ α → Prop
  | ok {a : α} (h : Q a) : Outcome E Q (.ok a)
  | error {f : φ} (h : E f) : Outcome E Q (.error f)

variable {E : φ → Prop} {Q : α → Prop} {R : β → Prop}

theorem Outcome.bind {x : Except φ α} {k : α → Except φ β} (hx : Outcome E Q x)
    (hk : ∀ a, Q a → Outcome E R (k a)) : Outcome E R (x >>= k) := by
  cases hx with
  | ok h => exact hk _ h
  | error h => exact .error h

theorem Outcome.imp {x : Except φ α} {E' : φ → Prop} {Q' : α → Prop} (hx : Outcome E Q x)
    (hE : ∀ f, E f → E' f) (hQ : ∀ a, Q a → Q' a) : Outcome E' Q' x := by
  cases hx with
  | ok h => exact .ok (hQ _ h)
  | error h => exact .error (hE _ h)

/-- What is known of every value `x` can succeed with may be added to its outcome. -/
theorem Outcome.and_ok {x : Except φ α} {P : α → Prop} (hx : Outcome E Q x)
    (hP : ∀ a, x = .ok a → P a) : Outcome E (fun a => Q a ∧ P a) x := by
  cases hx with
  | ok h => exact .ok ⟨h, hP _ rfl⟩
  | error h => exact .error h

theorem Outcome.of_ok {x : Except φ α} {a : α} (hx : Outcome E Q x) (h : x = .ok a) : Q a := by
  subst h
  cases hx with
  | ok h => exact h

theorem Outcome.of_error {x : Except φ α} {f : φ} (hx : Outcome E Q x) (h : x = .error f) :
    E f := by
  subst h
  cases hx with
  | error h => exact h

/-- A computation that cannot fault succeeds. -/
theorem Outcome.exists_ok {x : Except φ α} (hx : Outcome (fun _ => False) Q x) : ∃ a, x = .ok a ∧ Q a := by
  cases hx with
  | ok h => exact ⟨_, rfl, h⟩
  | error h => exact h.elim

theorem Outcome.intro {x : Except φ α} (hE : ∀ f, x = .error f → E f)
    (hQ : ∀ a, x = .ok a → Q a) : Outcome E Q x := by
  cases x with
  | ok a => exact .ok (hQ a rfl)
  | error f => exact .error (hE f rfl)

theorem Outcome.mapError {ψ : Type} {x : Except φ α} {E' : ψ → Prop} {g : φ → ψ} (hx : Outcome E Q x)
    (hE : ∀ f, E f → E' (g f)) : Outcome E' Q (x.mapError g) := by
  cases hx with
  | ok h => exact .ok h
  | error h => exact .error (hE _ h)

theorem ok_bind (a : α) (k : α → Except φ β) : (.ok a >>= k) = k a := rfl

theorem bind_eq_ok {x : Except φ α} {k : α → Except φ β} {b : β} :
    x >>= k = .ok b ↔ ∃ a, x = .ok a ∧ k a = .ok b := by
  cases x with
  | ok a =>
      constructor
      · intro h
        exact ⟨a, rfl, h⟩
      · rintro ⟨a', ha, hb⟩
        cases ha
        exact hb
  | error f =>
      constructor
      · intro h
        cases h
      · rintro ⟨a, ha, -⟩
        cases ha

/-- Two computations succeed with related values, or have the same fault. -/
inductive Paired {α' : Type} (R : α → α' → Prop) : Except φ α → Except φ α' → Prop
  | ok {a : α} {a' : α'} (h : R a a') : Paired R (.ok a) (.ok a')
  | error (f : φ) : Paired R (.error f) (.error f)

theorem Paired.bind {α' β' : Type} {R : α → α' → Prop} {S : β → β' → Prop} {x : Except φ α}
    {x' : Except φ α'} {k : α → Except φ β} {k' : α' → Except φ β'} (hx : Paired R x x')
    (hk : ∀ a a', R a a' → Paired S (k a) (k' a')) : Paired S (x >>= k) (x' >>= k') := by
  cases hx with
  | ok h => exact hk _ _ h
  | error f => exact .error f

theorem Paired.refl (x : Except φ α) : Paired Eq x x := by
  cases x with
  | ok a => exact .ok rfl
  | error f => exact .error f

theorem Paired.exists_of_ok {α' : Type} {R : α → α' → Prop} {x : Except φ α} {x' : Except φ α'} {a : α}
    (hx : Paired R x x') (h : x = .ok a) : ∃ a', x' = .ok a' ∧ R a a' := by
  subst h
  cases hx with
  | ok h => exact ⟨_, rfl, h⟩

theorem Paired.of_ok {α' : Type} {R : α → α' → Prop} {x : Except φ α} {x' : Except φ α'} {a : α} {a' : α'}
    (hx : Paired R x x') (h : x = .ok a) (h' : x' = .ok a') : R a a' := by
  subst h
  subst h'
  cases hx with
  | ok h => exact h

/-- The fault of a computation, if it has one. -/
def faultOf : Except φ α → Option φ
  | .ok _ => none
  | .error f => some f

theorem eq_error_of_faultOf {x : Except φ α} {f : φ} (h : faultOf x = some f) : x = .error f := by
  cases x with
  | ok a => cases h
  | error g =>
      cases h
      rfl

end Outcome

/-! ### Machines and runs -/

/-- `enabled` says which events the environment may issue; `step` is what the code does then. -/
structure Machine (σ ε φ : Type) where
  enabled : σ → ε → Prop
  step : σ → ε → Except φ σ

namespace Machine

variable {σ ε φ : Type} (M : Machine σ ε φ)

def Step (s : σ) (e : ε) (t : σ) : Prop := M.enabled s e ∧ M.step s e = .ok t

inductive Run : σ → List ε → σ → Prop
  | nil (s : σ) : Run s [] s
  | cons {s t u : σ} {e : ε} {es : List ε} (hstep : M.Step s e t) (hrun : Run t es u) :
      Run s (e :: es) u

def Reachable (Init : σ → Prop) (t : σ) : Prop := ∃ s es, Init s ∧ M.Run s es t

/-- The same machine, issued only those events that meet `C` in the state they are issued in. -/
def restrict (C : σ → ε → Prop) : Machine σ ε φ where
  enabled s e := M.enabled s e ∧ C s e
  step := M.step

variable {M}

theorem Run.append {s t u : σ} {es fs : List ε} (h : M.Run s es t) (h' : M.Run t fs u) :
    M.Run s (es ++ fs) u := by
  induction h with
  | nil => exact h'
  | cons hstep _ ih => exact .cons hstep (ih h')

theorem Run.snoc {s t u : σ} {es : List ε} {e : ε} (h : M.Run s es t) (h' : M.Step t e u) :
    M.Run s (es ++ [e]) u :=
  h.append (.cons h' (.nil u))

/-- What one step preserves a whole run preserves. -/
theorem Run.invariant {I : σ → Prop} (hI : ∀ s e t, I s → M.Step s e t → I t)
    {s t : σ} {es : List ε} (h : M.Run s es t) (hs : I s) : I t := by
  induction h with
  | nil => exact hs
  | cons hstep _ ih => exact ih (hI _ _ _ hs hstep)

theorem Run.unique {s t t' : σ} {es : List ε} (h : M.Run s es t) (h' : M.Run s es t') : t = t' := by
  induction h with
  | nil s =>
      cases h'
      rfl
  | @cons s u t e es hstep _ ih =>
      cases h' with
      | cons hstep' hrun' =>
          cases hstep.2.symm.trans hstep'.2
          exact ih hrun'

theorem Run.of_imp {N : Machine σ ε φ} (hN : ∀ s e t, M.Step s e t → N.Step s e t)
    {s t : σ} {es : List ε} (h : M.Run s es t) : N.Run s es t := by
  induction h with
  | nil => exact .nil _
  | cons hstep _ ih => exact .cons (hN _ _ _ hstep) ih

theorem restrict_step {C : σ → ε → Prop} {s t : σ} {e : ε} :
    (M.restrict C).Step s e t ↔ C s e ∧ M.Step s e t :=
  ⟨fun h => ⟨h.1.2, h.1.1, h.2⟩, fun h => ⟨⟨h.2.1, h.1⟩, h.2.2⟩⟩

theorem Run.of_restrict {C : σ → ε → Prop} {s t : σ} {es : List ε}
    (h : (M.restrict C).Run s es t) : M.Run s es t :=
  h.of_imp fun _ _ _ hstep => (restrict_step.1 hstep).2

/-- A condition on events alone is met by a run if all its events meet it. -/
theorem Run.restrict_of_forall {C : σ → ε → Prop} {s t : σ} {es : List ε} (h : M.Run s es t)
    (hC : ∀ e ∈ es, ∀ u, C u e) : (M.restrict C).Run s es t := by
  induction h with
  | nil s => exact .nil s
  | cons hstep _ ih =>
      have hfirst := hC _ List.mem_cons_self
      exact .cons (restrict_step.2 ⟨hfirst _, hstep⟩) (ih fun e he => hC e (List.mem_cons_of_mem _ he))

theorem Run.restrict_mono {C D : σ → ε → Prop} (hCD : ∀ s e, C s e → D s e) {s t : σ}
    {es : List ε} (h : (M.restrict C).Run s es t) : (M.restrict D).Run s es t :=
  h.of_imp fun _ _ _ hstep =>
    restrict_step.2 ⟨hCD _ _ (restrict_step.1 hstep).1, (restrict_step.1 hstep).2⟩

theorem Reachable.of_restrict {C : σ → ε → Prop} {Init : σ → Prop} {t : σ}
    (h : (M.restrict C).Reachable Init t) : M.Reachable Init t := by
  obtain ⟨s, es, hs, hrun⟩ := h
  exact ⟨s, es, hs, hrun.of_restrict⟩

theorem Reachable.restrict_mono {C D : σ → ε → Prop} (hCD : ∀ s e, C s e → D s e)
    {Init : σ → Prop} {t : σ} (h : (M.restrict C).Reachable Init t) :
    (M.restrict D).Reachable Init t := by
  obtain ⟨s, es, hs, hrun⟩ := h
  exact ⟨s, es, hs, hrun.restrict_mono hCD⟩

theorem Reachable.step {Init : σ → Prop} {s t : σ} {e : ε} (h : M.Reachable Init s)
    (hstep : M.Step s e t) : M.Reachable Init t := by
  obtain ⟨s₀, es, hs₀, hrun⟩ := h
  exact ⟨s₀, es ++ [e], hs₀, hrun.snoc hstep⟩

/-- The invariant rule; the step may use that its source is itself reachable, so that invariants
can be stacked. -/
theorem Reachable.invariant {Init I : σ → Prop} (hinit : ∀ s, Init s → I s)
    (hI : ∀ s e t, M.Reachable Init s → I s → M.Step s e t → I t) {t : σ}
    (h : M.Reachable Init t) : I t := by
  obtain ⟨s, es, hs, hrun⟩ := h
  have hboth : M.Reachable Init t ∧ I t :=
    hrun.invariant (I := fun u => M.Reachable Init u ∧ I u)
      (fun u e v hu hstep => ⟨hu.1.step hstep, hI u e v hu.1 hu.2 hstep⟩)
      ⟨⟨s, [], hs, .nil s⟩, hinit s hs⟩
  exact hboth.2

/-- Machines that agree where an invariant of the first holds have the same runs from there. -/
theorem run_iff_of_invariant {N : Machine σ ε φ} {I : σ → Prop}
    (hI : ∀ s e t, I s → M.Step s e t → I t)
    (hagree : ∀ s e t, I s → (M.Step s e t ↔ N.Step s e t)) {s t : σ} {es : List ε} (hs : I s) :
    M.Run s es t ↔ N.Run s es t := by
  constructor
  · intro h
    induction h with
    | nil s => exact .nil s
    | cons hstep _ ih => exact .cons ((hagree _ _ _ hs).1 hstep) (ih (hI _ _ _ hs hstep))
  · intro h
    induction h with
    | nil s => exact .nil s
    | cons hstep _ ih =>
        have hstep' := (hagree _ _ _ hs).2 hstep
        exact .cons hstep' (ih (hI _ _ _ hs hstep'))

/-- Runs on paired events from related states end in related states, if steps do. -/
theorem Run.paired {N : Machine σ ε φ} {R : σ → σ → Prop} {E : ε → ε → Prop}
    (hR : ∀ s s' e e', R s s' → E e e' → M.enabled s e → Paired R (M.step s e) (N.step s' e'))
    {s t s' t' : σ} {es es' : List ε} (h : M.Run s es t) (h' : N.Run s' es' t') (hes : List.Forall₂ E es es')
    (hs : R s s') : R t t' := by
  induction h generalizing s' es' with
  | nil s =>
      cases hes with
      | nil =>
          cases h' with
          | nil s' => exact hs
  | cons hstep _ ih =>
      cases hes with
      | cons he hes =>
          cases h' with
          | cons hstep' hrun' =>
              exact ih hrun' hes ((hR _ _ _ _ hs he hstep.1).of_ok hstep.2 hstep'.2)

/-! ### History variables -/

section Record

variable {β : Type} {f : σ → ε → β → β}

variable (M) in
/-- The same machine with a history beside its state, to which every step adds what `f` says. -/
def record (f : σ → ε → β → β) : Machine (σ × β) ε φ where
  enabled x e := M.enabled x.1 e
  step x e := do return (← M.step x.1 e, f x.1 e x.2)

theorem record_step {x y : σ × β} {e : ε} :
    (M.record f).Step x e y ↔ M.Step x.1 e y.1 ∧ y.2 = f x.1 e x.2 := by
  constructor
  · rintro ⟨henabled, hstep⟩
    obtain ⟨t, ht, heq⟩ := bind_eq_ok.1 hstep
    cases heq
    exact ⟨⟨henabled, ht⟩, rfl⟩
  · rintro ⟨⟨henabled, hstep⟩, hhistory⟩
    refine ⟨henabled, bind_eq_ok.2 ⟨y.1, hstep, ?_⟩⟩
    rw [← hhistory]
    rfl

end Record

/-! ### Replaying a concrete run -/

section Replay

variable [∀ s e, Decidable (M.enabled s e)]

variable (M) in
/-- Issue the events in order; `none` once one of them is not enabled or faults. -/
def replay : σ → List ε → Option σ
  | s, [] => some s
  | s, e :: es =>
    if M.enabled s e then
      match M.step s e with
      | .ok t => replay t es
      | .error _ => none
    else none

theorem run_of_replay {s t : σ} {es : List ε} (h : M.replay s es = some t) : M.Run s es t := by
  induction es generalizing s with
  | nil =>
      obtain rfl : s = t := Option.some.inj h
      exact .nil s
  | cons e es ih =>
      rw [replay] at h
      split at h
      · rename_i henabled
        split at h
        · rename_i u hu
          exact .cons ⟨henabled, hu⟩ (ih h)
        · cases h
      · cases h

variable (M) in
/-- The state in which a replay ends. -/
def after (s : σ) (es : List ε) : σ := (M.replay s es).getD s

theorem run_after {s : σ} {es : List ε} (h : (M.replay s es).isSome = true) :
    M.Run s es (M.after s es) := by
  obtain ⟨t, ht⟩ := Option.isSome_iff_exists.1 h
  rw [after, ht]
  exact run_of_replay ht

/-- A run and what is seen of its end, with one replay for both. -/
theorem run_after_map {β : Type} {f : σ → β} {b : β} {s : σ} {es : List ε} (h : (M.replay s es).map f = some b) :
    M.Run s es (M.after s es) ∧ f (M.after s es) = b := by
  obtain ⟨t, ht, hb⟩ := Option.map_eq_some_iff.1 h
  rw [after, ht]
  exact ⟨run_of_replay ht, hb⟩

theorem step_after {s : σ} {e : ε} (h : (M.replay s [e]).isSome = true) :
    M.Step s e (M.after s [e]) := by
  have hrun := run_after h
  cases hrun with
  | cons hstep hrest =>
      cases hrest with
      | nil => exact hstep

instance {C : σ → ε → Prop} [∀ s e, Decidable (C s e)] (s : σ) (e : ε) :
    Decidable ((M.restrict C).enabled s e) :=
  inferInstanceAs (Decidable (M.enabled s e ∧ C s e))

instance {β : Type} {f : σ → ε → β → β} (x : σ × β) (e : ε) : Decidable ((M.record f).enabled x e) :=
  inferInstanceAs (Decidable (M.enabled x.1 e))

end Replay

end Machine

end FaultMachine
