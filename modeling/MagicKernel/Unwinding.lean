import MagicKernel.FaultMachine

/-! Noninterference by unwinding. Of the steps of a run some are visible; the others are deleted. A relation
between the states of the run and those of what is left of it is an unwinding relation if a deleted step
keeps it on its own and a visible step keeps it on both sides, with the same output. -/

namespace FaultMachine.Machine

variable {σ ε φ ω : Type} (M : Machine σ ε φ)

section Purge

variable (visible : σ → ε → Prop) [∀ s e, Decidable (visible s e)]

/-- The visible steps of the run from `s`. -/
def purge : σ → List ε → List ε
  | _, [] => []
  | s, e :: es =>
    match M.step s e with
    | .ok t => if visible s e then e :: purge t es else purge t es
    | .error _ => []

/-- The outputs of the visible steps of the run from `s`. -/
def observed (out : σ → ε → ω) : σ → List ε → List ω
  | _, [] => []
  | s, e :: es =>
    match M.step s e with
    | .ok t => if visible s e then out s e :: observed out t es else observed out t es
    | .error _ => []

end Purge

/-- `R` relates a state to one from which the steps that are not visible have been deleted. -/
structure Unwinds (visible : σ → ε → Prop) (out : σ → ε → ω) (R : σ → σ → Prop) : Prop where
  hidden : ∀ s s' e t, R s s' → M.Step s e t → ¬visible s e → R t s'
  shown : ∀ s s' e t, R s s' → M.Step s e t → visible s e →
    visible s' e ∧ out s' e = out s e ∧ ∃ t', M.Step s' e t' ∧ R t t'

variable {M} {visible : σ → ε → Prop} {out : σ → ε → ω} {R : σ → σ → Prop}

/-- A condition on the steps may be imposed on the run and on what is left of it, if the visible steps meet it
in both. -/
theorem Unwinds.restrict (hR : M.Unwinds visible out R) {C : σ → ε → Prop}
    (hC : ∀ s s' e, R s s' → visible s e → C s e → C s' e) : (M.restrict C).Unwinds visible out R where
  hidden s s' e t hs hstep hhidden := hR.hidden s s' e t hs (restrict_step.1 hstep).2 hhidden
  shown s s' e t hs hstep hvisible := by
    obtain ⟨hcond, hstep⟩ := restrict_step.1 hstep
    obtain ⟨hvisible', hout, t', hstep', ht⟩ := hR.shown s s' e t hs hstep hvisible
    exact ⟨hvisible', hout, t', restrict_step.2 ⟨hC s s' e hs hvisible hcond, hstep'⟩, ht⟩

variable [∀ s e, Decidable (visible s e)]

theorem purge_of_visible {s t : σ} {e : ε} (h : M.step s e = .ok t) (hvisible : visible s e) (es : List ε) :
    M.purge visible s (e :: es) = e :: M.purge visible t es := by
  rw [purge, h]
  exact if_pos hvisible

theorem purge_of_hidden {s t : σ} {e : ε} (h : M.step s e = .ok t) (hhidden : ¬visible s e) (es : List ε) :
    M.purge visible s (e :: es) = M.purge visible t es := by
  rw [purge, h]
  exact if_neg hhidden

theorem observed_of_visible {s t : σ} {e : ε} (h : M.step s e = .ok t) (hvisible : visible s e) (es : List ε) :
    M.observed visible out s (e :: es) = out s e :: M.observed visible out t es := by
  rw [observed, h]
  exact if_pos hvisible

theorem observed_of_hidden {s t : σ} {e : ε} (h : M.step s e = .ok t) (hhidden : ¬visible s e) (es : List ε) :
    M.observed visible out s (e :: es) = M.observed visible out t es := by
  rw [observed, h]
  exact if_neg hhidden

theorem purge_restrict (C : σ → ε → Prop) (s : σ) (es : List ε) :
    (M.restrict C).purge visible s es = M.purge visible s es := by
  induction es generalizing s with
  | nil => rfl
  | cons e es ih =>
      cases hstep : M.step s e with
      | ok t =>
          have hstep' : (M.restrict C).step s e = .ok t := hstep
          by_cases hvisible : visible s e
          · rw [purge_of_visible hstep hvisible, purge_of_visible hstep' hvisible, ih]
          · rw [purge_of_hidden hstep hvisible, purge_of_hidden hstep' hvisible, ih]
      | error f =>
          have hstep' : (M.restrict C).step s e = .error f := hstep
          rw [purge, purge, hstep, hstep']

theorem observed_restrict (C : σ → ε → Prop) (out : σ → ε → ω) (s : σ) (es : List ε) :
    (M.restrict C).observed visible out s es = M.observed visible out s es := by
  induction es generalizing s with
  | nil => rfl
  | cons e es ih =>
      cases hstep : M.step s e with
      | ok t =>
          have hstep' : (M.restrict C).step s e = .ok t := hstep
          by_cases hvisible : visible s e
          · rw [observed_of_visible hstep hvisible, observed_of_visible hstep' hvisible, ih]
          · rw [observed_of_hidden hstep hvisible, observed_of_hidden hstep' hvisible, ih]
      | error f =>
          have hstep' : (M.restrict C).step s e = .error f := hstep
          rw [observed, observed, hstep, hstep']

/-- What is left of a run is a run, and its outputs are those that were visible. -/
theorem Unwinds.run (hR : M.Unwinds visible out R) {s t s' : σ} {es : List ε} (hrun : M.Run s es t)
    (hs : R s s') : ∃ t', M.Run s' (M.purge visible s es) t' ∧ R t t' ∧
      M.observed visible out s' (M.purge visible s es) = M.observed visible out s es := by
  induction hrun generalizing s' with
  | nil s => exact ⟨s', .nil s', hs, rfl⟩
  | @cons s u t e es hstep hrest ih =>
      by_cases hvisible : visible s e
      · obtain ⟨hvisible', hout, u', hstep', hu⟩ := hR.shown s s' e u hs hstep hvisible
        obtain ⟨t', hrun', ht, hobserved⟩ := ih hu
        refine ⟨t', ?_, ht, ?_⟩
        · rw [purge_of_visible hstep.2 hvisible]
          exact .cons hstep' hrun'
        · rw [purge_of_visible hstep.2 hvisible, observed_of_visible hstep.2 hvisible,
            observed_of_visible hstep'.2 hvisible', hout, hobserved]
      · obtain ⟨t', hrun', ht, hobserved⟩ := ih (hR.hidden s s' e u hs hstep hvisible)
        refine ⟨t', ?_, ht, ?_⟩
        · rw [purge_of_hidden hstep.2 hvisible]
          exact hrun'
        · rw [purge_of_hidden hstep.2 hvisible, observed_of_hidden hstep.2 hvisible, hobserved]

end FaultMachine.Machine
