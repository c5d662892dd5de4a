import Mathlib.Data.List.Basic

/-!
# Noninterference by unwinding

Some inputs of a machine are relevant to an observer. When the irrelevant ones
change nothing the observer can tell, a run shows at its relevant inputs exactly
what the run on these inputs alone shows.
-/

namespace Foundation.Unwinding

variable {σ ι ω : Type*} (step : σ → ι → σ) (out : σ → ι → ω) (relevant : ι → Bool)

/-- What a run from `s` shows at its relevant inputs. -/
def visible (s : σ) : List ι → List ω
  | [] => []
  | i :: l => if relevant i then out s i :: visible (step s i) l else visible (step s i) l

/-- `E` relates the states between which the observer cannot tell. -/
structure Unwinds (E : σ → σ → Prop) : Prop where
  skip : ∀ {s s' i}, relevant i = false → E s s' → E (step s i) s'
  step : ∀ {s s' i}, relevant i = true → E s s' → E (step s i) (step s' i)
  out : ∀ {s s' i}, relevant i = true → E s s' → out s i = out s' i

variable {step out relevant} {E : σ → σ → Prop}

/-- Purging the irrelevant inputs changes nothing that is shown, and leads to a
state between which and the other the observer cannot tell. -/
theorem Unwinds.purge (h : Unwinds step out relevant E) {s s' : σ} (hs : E s s') (l : List ι) :
    visible step out relevant s l = visible step out relevant s' (l.filter relevant) ∧
      E (l.foldl step s) ((l.filter relevant).foldl step s') := by
  induction l generalizing s s' with
  | nil => exact ⟨rfl, hs⟩
  | cons i l ih =>
      by_cases hi : relevant i = true
      · obtain ⟨hvisible, hfinal⟩ := ih (h.step hi hs)
        rw [List.filter_cons_of_pos hi, visible, visible, if_pos hi, if_pos hi, h.out hi hs,
          hvisible]
        exact ⟨rfl, hfinal⟩
      · obtain ⟨hvisible, hfinal⟩ := ih (h.skip (Bool.eq_false_iff.mpr hi) hs)
        rw [List.filter_cons_of_neg hi, visible, if_neg hi, hvisible]
        exact ⟨rfl, hfinal⟩

/-- A run all of whose inputs are relevant shows everything. -/
theorem visible_of_forall {l : List ι} (hl : ∀ i ∈ l, relevant i = true) (s : σ) :
    visible step out relevant s l = visible step out (fun _ => true) s l := by
  induction l generalizing s with
  | nil => rfl
  | cons i l ih =>
      obtain ⟨hi, hl⟩ := List.forall_mem_cons.mp hl
      rw [visible, visible, if_pos hi, if_pos rfl, ih hl]

end Foundation.Unwinding
