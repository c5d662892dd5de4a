import IoEmulator.Foundation.StepRuns
import Mathlib.Logic.Function.Basic

/-!
# Keyed stores and the last write of a run

Each step of a run writes at most one key of a store. What a key holds after
the run is decided by the last write under it, or by the initial contents when
the run never writes it.
-/

namespace Foundation.KeyedLog

open Foundation.StepRuns

variable {κ ν σ ι : Type*}
variable (step : σ → ι → σ) (writes : σ → ι → κ → ν → Prop)

/-- No step of the run from `s` writes `k`. -/
def NeverWritten (s : σ) (k : κ) (l : List ι) : Prop :=
  AllSteps step (fun s i => ∀ u, ¬ writes s i k u) s l

/-- Some step of the run from `s` writes `v` under `k`, and no later step writes
that key again. -/
def LastWrite (s : σ) (k : κ) (l : List ι) (v : ν) : Prop :=
  ∃ before i after, l = before ++ i :: after ∧ writes (before.foldl step s) i k v ∧
    NeverWritten step writes ((before ++ [i]).foldl step s) k after

/-- Every run either never writes a key or has a last write under it. -/
theorem lastWrite_or_neverWritten (s : σ) (k : κ) (l : List ι) :
    (∃ v, LastWrite step writes s k l v) ∨ NeverWritten step writes s k l := by
  induction l generalizing s with
  | nil => exact Or.inr (allSteps_nil s)
  | cons i l ih =>
      rcases ih (step s i) with ⟨v, before, j, after, rfl, hw, hn⟩ | hn
      · exact Or.inl ⟨v, i :: before, j, after, rfl, hw, hn⟩
      · by_cases hi : ∃ u, writes s i k u
        · obtain ⟨u, hu⟩ := hi
          exact Or.inl ⟨u, [], i, l, rfl, hu, hn⟩
        · exact Or.inr (allSteps_cons.mpr ⟨fun u hu => hi ⟨u, hu⟩, hn⟩)

section Contents

variable {step writes} [DecidableEq κ]

/-- `contents` follows the writes: a step that writes changes exactly the key
written, and a step that writes nothing changes no key. -/
structure Records (step : σ → ι → σ) (writes : σ → ι → κ → ν → Prop)
    (contents : σ → κ → Option ν) : Prop where
  write : ∀ {s i k v}, writes s i k v →
    contents (step s i) = Function.update (contents s) k (some v)
  skip : ∀ {s i}, (∀ k v, ¬ writes s i k v) → contents (step s i) = contents s

variable {contents : σ → κ → Option ν}

/-- A key that is never written keeps its contents. -/
theorem Records.contents_of_neverWritten (h : Records step writes contents) {s : σ} {k : κ}
    {l : List ι} (hn : NeverWritten step writes s k l) :
    contents (l.foldl step s) k = contents s k := by
  induction l generalizing s with
  | nil => rfl
  | cons i l ih =>
      obtain ⟨hi, hl⟩ := allSteps_cons.mp hn
      rw [List.foldl_cons, ih hl]
      by_cases hw : ∃ k' v, writes s i k' v
      · obtain ⟨k', v, hv⟩ := hw
        have hk : k ≠ k' := by
          rintro rfl
          exact hi v hv
        rw [h.write hv, Function.update_of_ne hk]
      · rw [h.skip fun k' v hv => hw ⟨k', v, hv⟩]

/-- A key holds the value of its last write. -/
theorem Records.contents_of_lastWrite (h : Records step writes contents) {s : σ} {k : κ}
    {l : List ι} {v : ν} (hl : LastWrite step writes s k l v) :
    contents (l.foldl step s) k = some v := by
  obtain ⟨before, i, after, rfl, hw, hn⟩ := hl
  rw [List.foldl_append, List.foldl_cons]
  rw [List.foldl_append, List.foldl_cons, List.foldl_nil] at hn
  rw [h.contents_of_neverWritten hn, h.write hw, Function.update_self]

/-- Starting from an empty store, what a key holds is exactly its last write. -/
theorem Records.contents_eq_some_iff (h : Records step writes contents) {s : σ}
    (hs : ∀ k, contents s k = none) (k : κ) (l : List ι) (v : ν) :
    contents (l.foldl step s) k = some v ↔ LastWrite step writes s k l v := by
  constructor
  · intro hv
    rcases lastWrite_or_neverWritten step writes s k l with ⟨u, hu⟩ | hn
    · obtain rfl : u = v := Option.some.inj ((h.contents_of_lastWrite hu).symm.trans hv)
      exact hu
    · rw [h.contents_of_neverWritten hn, hs] at hv
      simp at hv
  · exact h.contents_of_lastWrite

section Stateless

variable (write? : ι → Option (κ × ν))

/-- The value an input writes under a key, whatever the state. -/
def valueUnder (k : κ) (i : ι) : Option ν :=
  (write? i).bind fun p => if p.1 = k then some p.2 else none

/-- The last value written under a key. -/
def lastWrite? (k : κ) (l : List ι) : Option ν := (l.filterMap (valueUnder write? k)).getLast?

variable {write?}

theorem lastWrite?_cons (k : κ) (i : ι) (l : List ι) :
    lastWrite? write? k (i :: l) = (lastWrite? write? k l).or (valueUnder write? k i) := by
  unfold lastWrite?
  cases hi : valueUnder write? k i with
  | none => simp [hi]
  | some v =>
      rw [List.filterMap_cons_some hi, List.getLast?_cons]
      cases (l.filterMap (valueUnder write? k)).getLast? <;> rfl

/-- When the inputs alone decide what is written, a key holds the last value
written under it, or what it held at first. -/
theorem Records.contents_stateless
    (h : Records step (fun _ i k v => write? i = some (k, v)) contents) (s : σ) (k : κ)
    (l : List ι) :
    contents (l.foldl step s) k = (lastWrite? write? k l).or (contents s k) := by
  induction l generalizing s with
  | nil => rfl
  | cons i l ih =>
      rw [List.foldl_cons, ih, lastWrite?_cons, Option.or_assoc]
      congr 1
      cases hi : write? i with
      | none =>
          have hskip := h.skip (s := s) (i := i) fun k v hv => by simp [hi] at hv
          simp [valueUnder, hi, hskip]
      | some p =>
          obtain ⟨k', v⟩ := p
          rw [h.write (s := s) hi]
          by_cases hk : k' = k
          · subst hk
            simp [valueUnder, hi]
          · simp [valueUnder, hi, hk, Function.update_of_ne (Ne.symm hk)]

end Stateless

end Contents

end Foundation.KeyedLog
