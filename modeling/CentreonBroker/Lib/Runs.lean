import Mathlib.Data.List.Basic

/-!
# Runs

What holds at every moment of a run, and what is asked of each of its steps. Where a step keeps a
property exactly when something is asked of it, a run does so throughout exactly when that is asked
of each of its steps.
-/

namespace CentreonBroker

variable {σ ω : Type} (step : σ → ω → σ)

/-- The property holds before the run and after each of its steps. -/
def Throughout (P : σ → Prop) : σ → List ω → Prop
  | s, [] => P s
  | s, op :: ops => P s ∧ Throughout P (step s op) ops

/-- The condition is met by each step, in the state that it is made in. -/
def EachStep (C : σ → ω → Prop) : σ → List ω → Prop
  | _, [] => True
  | s, op :: ops => C s op ∧ EachStep C (step s op) ops

variable {step}

variable {P : σ → Prop} {s : σ} {ops : List ω}

theorem Throughout.last (h : Throughout step P s ops) :
    P (ops.foldl step s) := by
  induction ops generalizing s with
  | nil => exact h
  | cons op ops ih => exact ih h.2

variable {C : σ → ω → Prop}

/-- Where a step keeps the property exactly when it meets the condition, a run has the property
throughout exactly when each of its steps meets it. An invariant of all runs may help. -/
theorem throughout_iff_eachStep_of_invariant {I : σ → Prop}
    (hinv : ∀ s op, I s → I (step s op))
    (hstep : ∀ s op, I s → P s → (P (step s op) ↔ C s op)) (hi : I s) (hs : P s)
    (ops : List ω) : Throughout step P s ops ↔ EachStep step C s ops := by
  induction ops generalizing s with
  | nil => exact iff_of_true hs trivial
  | cons op ops ih =>
    constructor
    · rintro ⟨-, hrest⟩
      have hnext : P (step s op) := by
        cases ops with
        | nil => exact hrest
        | cons => exact hrest.1
      exact ⟨(hstep s op hi hs).mp hnext, (ih (hinv s op hi) hnext).mp hrest⟩
    · rintro ⟨hop, hrest⟩
      exact ⟨hs, (ih (hinv s op hi) ((hstep s op hi hs).mpr hop)).mpr hrest⟩

theorem throughout_iff_eachStep
    (hstep : ∀ s op, P s → (P (step s op) ↔ C s op)) (hs : P s) (ops : List ω) :
    Throughout step P s ops ↔ EachStep step C s ops :=
  throughout_iff_eachStep_of_invariant (I := fun _ => True) (fun _ _ _ => trivial)
    (fun s op _ => hstep s op) trivial hs ops

/-- A condition that does not look at the state. -/
theorem eachStep_const {C : ω → Prop} :
    EachStep step (fun _ => C) s ops ↔ ∀ op ∈ ops, C op := by
  induction ops generalizing s with
  | nil => exact iff_of_true trivial (List.forall_mem_nil C)
  | cons op ops ih => rw [EachStep, ih, List.forall_mem_cons]

theorem EachStep.append {pre post : List ω}
    (h : EachStep step C s (pre ++ post)) :
    EachStep step C s pre ∧ EachStep step C (pre.foldl step s) post := by
  induction pre generalizing s with
  | nil => exact ⟨trivial, h⟩
  | cons op pre ih => exact ⟨⟨h.1, (ih h.2).1⟩, (ih h.2).2⟩

/-- A condition that follows from another one, as long as an invariant holds that this one keeps. -/
theorem EachStep.mono {C' : σ → ω → Prop}
    (h : EachStep step C s ops) (hstep : ∀ s op, P s → C s op → C' s op ∧ P (step s op))
    (hs : P s) : EachStep step C' s ops := by
  induction ops generalizing s with
  | nil => trivial
  | cons op ops ih =>
    obtain ⟨hop, hnext⟩ := hstep s op hs h.1
    exact ⟨hop, ih h.2 hnext⟩

/-- What each step keeps when the condition is met holds at the end of the run. -/
theorem EachStep.invariant
    (hstep : ∀ s op, P s → C s op → P (step s op)) (hs : P s)
    (h : EachStep step C s ops) : P (ops.foldl step s) := by
  induction ops generalizing s with
  | nil => exact hs
  | cons op ops ih => exact ih (hstep s op hs h.1) h.2

end CentreonBroker
