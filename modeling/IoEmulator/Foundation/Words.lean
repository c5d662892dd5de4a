import Mathlib.Data.List.TakeWhile
import Mathlib.Tactic.Conv

/-!
# Words between separators

The words of a list are its maximal nonempty separator-free runs. A reader that
skips separators and then takes one run at a time produces exactly those runs.
-/

namespace Foundation.Words

variable {α : Type*} (sep : α → Bool)

/-- The maximal nonempty separator-free runs, in order. -/
def words (l : List α) : List (List α) := (l.splitOnP sep).filter fun w => !w.isEmpty

@[simp] theorem words_nil : words sep [] = [] := rfl

/-- A run that ends at a separator is one word, unless it is empty. -/
theorem words_append_cons {w : List α} (hw : ∀ c ∈ w, sep c = false) {s : α} (hs : sep s = true)
    (l : List α) :
    words sep (w ++ s :: l) = if w.isEmpty then words sep l else w :: words sep l := by
  rw [words, List.splitOnP_append_cons_of_forall_mem hw s hs, List.filter_cons]
  by_cases he : w.isEmpty = true <;> simp [he, words]

theorem words_cons_sep {s : α} (hs : sep s = true) (l : List α) :
    words sep (s :: l) = words sep l := by
  simpa using words_append_cons sep (w := []) (by simp) hs l

private theorem head_of_dropWhile_eq_cons {p : α → Bool} {l r : List α} {c : α}
    (h : l.dropWhile p = c :: r) : p c = false := by
  have hne : l.dropWhile p ≠ [] := by simp [h]
  simpa [h] using List.head_dropWhile_not p hne

/-- A nonempty separator-free list is its own only word. -/
theorem words_of_run {w : List α} (hne : w ≠ []) (hw : ∀ c ∈ w, sep c = false) :
    words sep w = [w] := by
  rw [words, List.splitOnP_eq_singleton hw]
  simp [hne]

/-- A word that meets a separator or the end of the input stands first. -/
theorem words_run_append {w r : List α} (hne : w ≠ []) (hw : ∀ c ∈ w, sep c = false)
    (hr : ∀ s ∈ r.head?, sep s = true) : words sep (w ++ r) = w :: words sep r := by
  cases r with
  | nil => simp [words_of_run sep hne hw]
  | cons s r =>
      have hs : sep s = true := hr s rfl
      rw [words_append_cons sep hw hs, if_neg (by simpa using hne), words_cons_sep sep hs]

theorem words_dropWhile (l : List α) : words sep (l.dropWhile sep) = words sep l := by
  induction l with
  | nil => rfl
  | cons c l ih =>
      by_cases hc : sep c = true
      · rw [List.dropWhile_cons_of_pos hc, ih, words_cons_sep sep hc]
      · rw [List.dropWhile_cons_of_neg hc]

/-- Every word is a nonempty separator-free run. -/
theorem mem_words {l w : List α} (h : w ∈ words sep l) : w ≠ [] ∧ ∀ c ∈ w, sep c = false := by
  induction hn : l.length using Nat.strong_induction_on generalizing l with
  | h n ih =>
      have hsplit : l.takeWhile (fun c => !sep c) ++ l.dropWhile (fun c => !sep c) = l :=
        List.takeWhile_append_dropWhile
      have hrun : ∀ c ∈ l.takeWhile (fun c => !sep c), sep c = false := fun c hc => by
        simpa using List.mem_takeWhile_imp hc
      cases hd : l.dropWhile (fun c => !sep c) with
      | nil =>
          rw [hd, List.append_nil] at hsplit
          by_cases hne : l = []
          · simp [hne] at h
          · rw [words_of_run sep hne (hsplit ▸ hrun), List.mem_singleton] at h
            exact ⟨h ▸ hne, h ▸ hsplit ▸ hrun⟩
      | cons s r =>
          have hs : sep s = true := by simpa using head_of_dropWhile_eq_cons hd
          have hlen : r.length < n := by
            have := congrArg List.length hsplit
            simp only [hd, List.length_append, List.length_cons] at this
            omega
          rw [← hsplit, hd, words_append_cons sep hrun hs] at h
          split at h
          · exact ih r.length hlen h rfl
          · rename_i hne
            rcases List.mem_cons.mp h with rfl | h
            · exact ⟨by simpa using hne, hrun⟩
            · exact ih r.length hlen h rfl

/-- A list is its own single word exactly when it is nonempty and separator-free. -/
theorem words_eq_self_iff (l : List α) :
    words sep l = [l] ↔ l ≠ [] ∧ ∀ c ∈ l, sep c = false := by
  constructor
  · intro h
    exact mem_words sep (h ▸ List.mem_singleton_self l)
  · rintro ⟨hne, hl⟩
    exact words_of_run sep hne hl

section Reader

/-- One read: skip separators, then take the run that follows and leave the
rest. There is nothing to read when only separators remain. -/
def nextWord (l : List α) : Option (List α × List α) :=
  match l.dropWhile sep with
  | [] => none
  | c :: r => some ((c :: r).takeWhile (fun c => !sep c), (c :: r).dropWhile (fun c => !sep c))

theorem nextWord_none {l : List α} (h : nextWord sep l = none) : words sep l = [] := by
  rw [← words_dropWhile]
  unfold nextWord at h
  split at h
  · rename_i hd
    simp [hd]
  · simp at h

/-- A read delivers the first word and leaves exactly the other words. -/
theorem nextWord_some {l w r : List α} (h : nextWord sep l = some (w, r)) :
    words sep l = w :: words sep r := by
  rw [← words_dropWhile]
  unfold nextWord at h
  split at h
  · simp at h
  · rename_i c t hd
    obtain ⟨rfl, rfl⟩ := Prod.mk.inj (Option.some.inj h)
    have hc : sep c = false := head_of_dropWhile_eq_cons hd
    conv_lhs => rw [hd, ← List.takeWhile_append_dropWhile (p := fun c => !sep c) (l := c :: t)]
    apply words_run_append
    · simp [hc]
    · intro d hmem
      simpa using List.mem_takeWhile_imp hmem
    · intro s hs
      obtain ⟨r', hr'⟩ := List.head?_eq_some_iff.mp hs
      simpa using head_of_dropWhile_eq_cons hr'

theorem nextWord_length_lt {l w r : List α} (h : nextWord sep l = some (w, r)) :
    r.length < l.length := by
  unfold nextWord at h
  split at h
  · simp at h
  · rename_i c t hd
    obtain ⟨-, rfl⟩ := Prod.mk.inj (Option.some.inj h)
    have hc : sep c = false := head_of_dropWhile_eq_cons hd
    have hdrop : (c :: t).length ≤ l.length := hd ▸ List.length_dropWhile_le sep l
    have hrest := List.length_dropWhile_le (fun c => !sep c) t
    simp only [List.dropWhile_cons, hc, Bool.not_false, if_true, List.length_cons] at hdrop ⊢
    omega

/-- Read words until a read fails. -/
def readWords (l : List α) : List (List α) :=
  match _h : nextWord sep l with
  | none => []
  | some (w, r) => w :: readWords r
termination_by l.length
decreasing_by exact nextWord_length_lt sep _h

/-- Repeated reading delivers exactly the words of the input. -/
theorem readWords_eq_words (l : List α) : readWords sep l = words sep l := by
  fun_induction readWords sep l with
  | case1 l h => exact (nextWord_none sep h).symm
  | case2 l w r h ih => rw [nextWord_some sep h, ih]

end Reader

/-- A list has no words exactly when it consists of separators. -/
theorem words_eq_nil_iff (l : List α) : words sep l = [] ↔ ∀ c ∈ l, sep c = true := by
  induction l with
  | nil => simp
  | cons c l ih =>
      by_cases hc : sep c = true
      · rw [words_cons_sep sep hc, ih, List.forall_mem_cons]
        exact (and_iff_right hc).symm
      · have hnext : nextWord sep (c :: l) = some ((c :: l).takeWhile (fun c => !sep c),
            (c :: l).dropWhile (fun c => !sep c)) := by
          rw [nextWord, List.dropWhile_cons_of_neg hc]
        rw [nextWord_some sep hnext]
        simp [hc]

/-- Words joined by single separators are the words of the joined list. -/
theorem words_intercalate {s : α} (hs : sep s = true) {ws : List (List α)}
    (hws : ∀ w ∈ ws, w ≠ [] ∧ ∀ c ∈ w, sep c = false) :
    words sep ([s].intercalate ws) = ws := by
  induction ws with
  | nil => rfl
  | cons w ws ih =>
      obtain ⟨⟨hne, hrun⟩, hws⟩ := List.forall_mem_cons.mp hws
      cases ws with
      | nil =>
          rw [List.intercalate_singleton]
          exact words_of_run sep hne hrun
      | cons v vs =>
          rw [List.intercalate_cons_cons, List.append_assoc, List.singleton_append,
            words_append_cons sep hrun hs, if_neg (by simpa using hne), ih hws]

section Cut

variable [DecidableEq α] {s c : α}

/-- A list that begins with a separator has a first word other than its part in
front of the separator `s`, unless it has no word at all. -/
theorem cut_ne_head_words {l q : List α} (hc : sep c = true)
    (hword : ∃ d ∈ c :: l ++ q, sep d = false) :
    ((c :: l).takeWhile fun d => d ≠ s) ≠ (words sep (c :: l ++ q)).headD [] := by
  obtain ⟨w, ws, hw⟩ : ∃ w ws, words sep (c :: l ++ q) = w :: ws := by
    apply List.exists_cons_of_ne_nil
    rw [ne_eq, words_eq_nil_iff]
    obtain ⟨d, hd, hsep⟩ := hword
    intro hall
    simp [hall d hd] at hsep
  obtain ⟨hne, hrun⟩ := mem_words sep (hw ▸ List.mem_cons_self : w ∈ words sep (c :: l ++ q))
  rw [hw, List.headD_cons]
  rintro rfl
  by_cases hcs : c = s
  · simp [hcs] at hne
  · have := hrun c (by simp [hcs])
    simp [hc] at this

/-- Cutting at the separator `s` finds the first word exactly when the list begins
with a word and `s` ends it. The part that is cut ends in a separator. -/
theorem cut_eq_head_words_iff {l q : List α} (hs : sep s = true) (hc : sep c = true)
    (hword : ∃ d ∈ l ++ [c], sep d = false) :
    ((l ++ [c]).takeWhile fun d => d ≠ s) = (words sep (l ++ [c] ++ q)).headD [] ↔
      ∃ w rest, w ≠ [] ∧ (∀ d ∈ w, sep d = false) ∧ l ++ [c] ++ q = w ++ s :: rest := by
  have hsplit : (l ++ [c]).takeWhile (fun d => !sep d) ++ (l ++ [c]).dropWhile (fun d => !sep d) =
      l ++ [c] := List.takeWhile_append_dropWhile
  have hrun : ∀ d ∈ (l ++ [c]).takeWhile (fun d => !sep d), sep d = false := fun d hd => by
    simpa using List.mem_takeWhile_imp hd
  generalize (l ++ [c]).takeWhile (fun d => !sep d) = w at hsplit hrun
  cases hd : (l ++ [c]).dropWhile (fun d => !sep d) with
  | nil =>
      have hall := List.dropWhile_eq_nil_iff.mp hd c (by simp)
      simp [hc] at hall
  | cons x r =>
      have hx : sep x = true := by simpa using head_of_dropWhile_eq_cons hd
      rw [hd] at hsplit
      rw [← hsplit] at hword ⊢
      have hws : ∀ d ∈ w, d ≠ s := by
        rintro d hd rfl
        simp [hrun d hd] at hs
      cases w with
      | nil =>
          refine iff_of_false (cut_ne_head_words sep hx ?_) ?_
          · obtain ⟨d, hd, hsep⟩ := hword
            exact ⟨d, List.mem_append_left q hd, hsep⟩
          · rintro ⟨w', rest, hne, hrun', hl⟩
            obtain ⟨d, w', rfl⟩ := List.exists_cons_of_ne_nil hne
            obtain ⟨rfl, -⟩ := List.cons.inj hl
            simp [hrun' x List.mem_cons_self] at hx
      | cons d w =>
          have hcut : ((d :: w ++ x :: r).takeWhile fun d => d ≠ s) =
              d :: w ++ (x :: r).takeWhile fun d => d ≠ s :=
            List.takeWhile_append_of_pos fun e he => by simpa using hws e he
          have hlist : d :: w ++ x :: r ++ q = d :: w ++ x :: (r ++ q) := by simp
          rw [hcut, hlist, words_append_cons sep hrun hx, if_neg (by simp), List.headD_cons,
            List.append_right_eq_self]
          constructor
          · intro hnil
            have hxs : x = s := by
              by_contra hne
              simp [hne] at hnil
            exact ⟨d :: w, r ++ q, by simp, hrun, by rw [hxs]⟩
          · rintro ⟨w', rest, -, hrun', hl⟩
            have hw' : (d :: w ++ x :: (r ++ q)).dropWhile (fun d => !sep d) = s :: rest := by
              rw [hl, List.dropWhile_append_of_pos (by simpa using hrun'),
                List.dropWhile_cons_of_neg (by simp [hs])]
            rw [List.dropWhile_append_of_pos (by simpa using hrun),
              List.dropWhile_cons_of_neg (by simp [hx])] at hw'
            obtain ⟨rfl, -⟩ := List.cons.inj hw'
            simp

end Cut

end Foundation.Words
