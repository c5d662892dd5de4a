import Mathlib.Data.List.Basic
import Mathlib.Logic.Relation

/-!
# Edits that a first-match lookup does not see

In a list of values with keys, where a lookup finds the first value of a key, two
neighbours with different keys can change places and a value behind one of its
key can be added or dropped. These edits connect exactly the lists that no lookup
tells apart.
-/

namespace Foundation.KeyedEdits

variable {κ ν : Type*} (key : ν → κ)

/-- One edit. -/
inductive Edit : List ν → List ν → Prop
  | swap {a b : ν} (h : key a ≠ key b) (front back : List ν) :
      Edit (front ++ a :: b :: back) (front ++ b :: a :: back)
  | drop {a b : ν} (front : List ν) (hb : b ∈ front) (h : key b = key a) (back : List ν) :
      Edit (front ++ a :: back) (front ++ back)

/-- Any number of edits, done or undone. -/
def Edits : List ν → List ν → Prop := Relation.EqvGen (Edit key)

variable {key}

theorem Edits.cons {l l' : List ν} (h : Edits key l l') (v : ν) : Edits key (v :: l) (v :: l') := by
  induction h with
  | rel l l' hedit =>
      cases hedit with
      | swap h front back => exact .rel _ _ (.swap h (v :: front) back)
      | drop front hb h back =>
          exact .rel _ _ (.drop (v :: front) (List.mem_cons_of_mem v hb) h back)
  | refl l => exact .refl _
  | symm l l' _ ih => exact ih.symm
  | trans l l' l'' _ _ ih ih' => exact ih.trans _ _ _ ih'

/-- A value can be brought in front of values with other keys. -/
theorem edits_front {a : ν} {front : List ν} (h : ∀ b ∈ front, key b ≠ key a) (back : List ν) :
    Edits key (front ++ a :: back) (a :: (front ++ back)) := by
  induction front with
  | nil => exact .refl _
  | cons b front ih =>
      obtain ⟨hb, hfront⟩ := List.forall_mem_cons.mp h
      have hswap : Edits key (b :: a :: (front ++ back)) (a :: b :: (front ++ back)) :=
        .rel _ _ (.swap hb [] (front ++ back))
      exact (Edits.cons (ih hfront) b).trans _ _ _ hswap

variable [DecidableEq κ]

/-- Everything behind a value that has its key can be dropped. -/
theorem edits_purge (a : ν) (l : List ν) :
    Edits key (a :: l) (a :: l.filter fun v => key v ≠ key a) := by
  induction l with
  | nil => exact .refl _
  | cons b l ih =>
      by_cases hb : key b = key a
      · have hdrop : Edits key (a :: b :: l) (a :: l) :=
          .rel _ _ (.drop [a] List.mem_cons_self hb.symm l)
        rw [List.filter_cons_of_neg (by simpa using hb)]
        exact hdrop.trans _ _ _ ih
      · have hswap : ∀ l, Edits key (a :: b :: l) (b :: a :: l) := fun l =>
          .rel _ _ (.swap (Ne.symm hb) [] l)
        rw [List.filter_cons_of_pos (by simpa using hb)]
        exact ((hswap l).trans _ _ _ (Edits.cons ih b)).trans _ _ _ (hswap _).symm

/-- No lookup sees an edit. -/
theorem Edit.find?_eq {l l' : List ν} (h : Edit key l l') (k : κ) :
    (l.find? fun v => key v = k) = l'.find? fun v => key v = k := by
  cases h with
  | @swap a b h front back =>
      by_cases ha : key a = k
      · have hb : key b ≠ k := fun hb => h (ha.trans hb.symm)
        simp [List.find?_append, ha, hb]
      · simp [List.find?_append, List.find?_cons, ha]
  | @drop a b front hb h back =>
      by_cases ha : key a = k
      · have hfound : (front.find? fun v => key v = k).isSome = true := by
          rw [List.find?_isSome]
          exact ⟨b, hb, by simpa using h.trans ha⟩
        obtain ⟨c, hc⟩ := Option.isSome_iff_exists.mp hfound
        simp [List.find?_append, hc]
      · simp [List.find?_append, ha]

theorem Edits.find?_eq {l l' : List ν} (h : Edits key l l') (k : κ) :
    (l.find? fun v => key v = k) = l'.find? fun v => key v = k := by
  induction h with
  | rel l l' hedit => exact hedit.find?_eq k
  | refl l => rfl
  | symm l l' _ ih => exact ih.symm
  | trans l l' l'' _ _ ih ih' => exact ih.trans ih'

/-- Keeping the values of some keys leaves the lookups of these keys alone. -/
theorem find?_filter_key (q : κ → Bool) (l : List ν) (k : κ) :
    ((l.filter fun v => q (key v)).find? fun v => key v = k) =
      if q k then l.find? fun v => key v = k else none := by
  rw [List.find?_filter]
  by_cases hk : q k = true
  · rw [if_pos hk]
    congr 1
    funext v
    by_cases hv : key v = k
    · simp [hv, hk]
    · simp [hv]
  · rw [if_neg hk, List.find?_eq_none]
    rintro v - hv
    simp only [decide_eq_true_eq] at hv
    exact hk (hv.2 ▸ hv.1)

/-- Dropping the values of one key leaves the lookups of the others alone. -/
theorem find?_filter_ne (a : ν) (l : List ν) (k : κ) :
    ((l.filter fun v => key v ≠ key a).find? fun v => key v = k) =
      if k = key a then none else (a :: l).find? fun v => key v = k := by
  rw [find?_filter_key (fun k => decide (k ≠ key a)) l k]
  by_cases hk : k = key a
  · simp [hk]
  · simp [hk, Ne.symm hk]

/-- Lists that no lookup tells apart are connected by edits: bring the first value
of one to the front of the other, drop what it hides, and go on behind it. -/
theorem edits_of_find?_eq {l l' : List ν}
    (h : ∀ k, (l.find? fun v => key v = k) = l'.find? fun v => key v = k) : Edits key l l' := by
  induction hn : l'.length using Nat.strongRecOn generalizing l l' with
  | _ n ih =>
      cases l' with
      | nil =>
          cases l with
          | nil => exact .refl _
          | cons a l => simpa using h (key a)
      | cons b l' =>
          have hb : (l.find? fun v => key v = key b) = some b := by rw [h (key b)]; simp
          obtain ⟨-, front, back, rfl, hfront⟩ := List.find?_eq_some_iff_append.mp hb
          have hne : ∀ v ∈ front, key v ≠ key b := fun v hv => by simpa using hfront v hv
          have hleft := (edits_front hne back).trans _ _ _ (edits_purge b (front ++ back))
          have hright : Edits key (b :: l') _ := edits_purge b l'
          have htail : Edits key ((front ++ back).filter fun v => key v ≠ key b)
              (l'.filter fun v => key v ≠ key b) := by
            refine ih _ ?_ (fun k => ?_) rfl
            · rw [← hn, List.length_cons, Nat.lt_succ_iff]
              exact List.length_filter_le _ _
            · rw [find?_filter_ne, find?_filter_ne, ← (edits_front hne back).find?_eq k, h k]
          exact (hleft.trans _ _ _ (htail.cons b)).trans _ _ _ hright.symm

/-- The edits connect exactly the lists that no lookup tells apart. -/
theorem edits_iff_find?_eq (l l' : List ν) :
    Edits key l l' ↔ ∀ k, (l.find? fun v => key v = k) = l'.find? fun v => key v = k :=
  ⟨fun h => h.find?_eq, edits_of_find?_eq⟩

section Maps

variable {μ : Type*} {key' : μ → κ} {f : ν → μ}

theorem find?_map_key (hf : ∀ v, key' (f v) = key v) (l : List ν) (k : κ) :
    ((l.map f).find? fun u => key' u = k) = (l.find? fun v => key v = k).map f := by
  rw [List.find?_map]
  simp only [Function.comp_def, hf]

theorem Edits.map {l l' : List ν} (h : Edits key l l') (hf : ∀ v, key' (f v) = key v) :
    Edits key' (l.map f) (l'.map f) := by
  rw [edits_iff_find?_eq]
  intro k
  rw [find?_map_key hf, find?_map_key hf, h.find?_eq k]

theorem Edits.filter {l l' : List ν} (h : Edits key l l') (q : κ → Bool) :
    Edits key (l.filter fun v => q (key v)) (l'.filter fun v => q (key v)) := by
  rw [edits_iff_find?_eq]
  intro k
  rw [find?_filter_key, find?_filter_key, h.find?_eq k]

end Maps

end Foundation.KeyedEdits
