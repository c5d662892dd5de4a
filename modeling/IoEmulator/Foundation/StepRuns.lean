import Mathlib.Data.List.Basic

/-!
# Runs of a deterministic step function

A run folds a step over a list of inputs. A condition on a state and the next
input is imposed on every step of a run, each in the state it meets.
-/

namespace Foundation.StepRuns

variable {σ ι : Type*} {step : σ → ι → σ}

/-- Every step of the run from `s` meets the condition. -/
def AllSteps (step : σ → ι → σ) (ok : σ → ι → Prop) (s : σ) (l : List ι) : Prop :=
  ∀ before i after, l = before ++ i :: after → ok (before.foldl step s) i

variable {ok : σ → ι → Prop}

theorem allSteps_nil (s : σ) : AllSteps step ok s [] := by
  intro before i after h
  simp at h

theorem allSteps_cons {s : σ} {i : ι} {l : List ι} :
    AllSteps step ok s (i :: l) ↔ ok s i ∧ AllSteps step ok (step s i) l := by
  constructor
  · intro h
    exact ⟨h [] i l rfl, fun before j after hl => h (i :: before) j after (by simp [hl])⟩
  · rintro ⟨hi, hl⟩ before j after heq
    cases before with
    | nil =>
        obtain ⟨rfl, rfl⟩ := List.cons.inj heq
        exact hi
    | cons b before =>
        obtain ⟨rfl, rfl⟩ := List.cons.inj heq
        exact hl before j after rfl

theorem AllSteps.of_append {s : σ} {l r : List ι} (h : AllSteps step ok s (l ++ r)) :
    AllSteps step ok s l :=
  fun before i after hl => h before i (after ++ r) (by simp [hl])

/-- An invariant that conditioned steps preserve holds after a conditioned run. -/
theorem AllSteps.invariant {I : σ → Prop} (hstep : ∀ s i, I s → ok s i → I (step s i)) {s : σ}
    {l : List ι} (h : AllSteps step ok s l) (hs : I s) : I (l.foldl step s) := by
  induction l generalizing s with
  | nil => exact hs
  | cons i l ih =>
      obtain ⟨hi, hl⟩ := allSteps_cons.mp h
      exact ih hl (hstep s i hs hi)

/-- When a step keeps a property exactly under a condition, the property holds all
along a run exactly when every step of it meets the condition. `J` holds along
every run. -/
theorem throughout_iff_allSteps {I J : σ → Prop} (hJ : ∀ s i, J s → J (step s i))
    (hstep : ∀ s i, J s → I s → (I (step s i) ↔ ok s i)) {s : σ} (hs : J s) (hI : I s)
    (l : List ι) :
    (∀ before after, l = before ++ after → I (before.foldl step s)) ↔ AllSteps step ok s l := by
  have hrun : ∀ before : List ι, J (before.foldl step s) := fun before =>
    List.foldlRecOn before step hs fun s hs i _ => hJ s i hs
  constructor
  · intro h before i after hl
    have hnow := h before (i :: after) hl
    have hnext := h (before ++ [i]) after (by simp [hl])
    rw [List.foldl_append] at hnext
    exact (hstep _ i (hrun before) hnow).mp hnext
  · rintro h before after rfl
    have hinv := h.of_append.invariant (I := fun s => J s ∧ I s)
      (fun s i hs hi => ⟨hJ s i hs.1, (hstep s i hs.1 hs.2).mpr hi⟩) ⟨hs, hI⟩
    exact hinv.2

end Foundation.StepRuns
