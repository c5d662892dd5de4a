import Mathlib.Data.Stream.Init

/-!
# Loops that poll a running flag before each input

The loop reads one input per iteration from an infinite stream and leaves as
soon as the flag is down. The inputs it serves are the prefix of the stream up
to and including the first one that takes the flag down.

## Implementation notes

`drive n` performs at most `n` iterations and also returns the unread stream, so
that a loop which never leaves is described by all its finite prefixes.
-/

namespace Foundation.InterruptibleLoop

variable {σ ι : Type*}

/-- The inputs up to and including the first stopping one. -/
def upToFirst (stop : ι → Bool) : List ι → List ι
  | [] => []
  | i :: rest => if stop i then [i] else i :: upToFirst stop rest

/-- Dropping inputs, none of which stops, drops them from the served ones. -/
theorem upToFirst_filter {stop p : ι → Bool} (hp : ∀ i, stop i = true → p i = true) (l : List ι) :
    upToFirst stop (l.filter p) = (upToFirst stop l).filter p := by
  induction l with
  | nil => rfl
  | cons i l ih =>
      by_cases hi : stop i = true
      · simp [upToFirst, hi, hp i hi]
      · by_cases hpi : p i = true <;> simp [upToFirst, hi, hpi, ih]

theorem upToFirst_subset (stop : ι → Bool) (l : List ι) : upToFirst stop l ⊆ l := by
  induction l with
  | nil => exact fun _ h => h
  | cons i l ih =>
      by_cases hi : stop i = true
      · simp [upToFirst, hi]
      · simpa [upToFirst, hi] using List.cons_subset_cons i ih

/-- A stopping input that is the only one of its kind is served if it comes at all. -/
theorem mem_upToFirst_eq [DecidableEq ι] (a : ι) (l : List ι) :
    a ∈ upToFirst (fun i => decide (i = a)) l ↔ a ∈ l := by
  induction l with
  | nil => exact Iff.rfl
  | cons i l ih =>
      by_cases hi : i = a
      · simp [upToFirst, hi]
      · simp [upToFirst, hi, ih]

variable (running : σ → Bool) (iter : σ → ι → σ)

/-- At most `n` iterations; the second component is the input left unread. -/
def drive : ℕ → σ → Stream' ι → σ × Stream' ι
  | 0, s, input => (s, input)
  | n + 1, s, input =>
      if running s then drive n (iter s input.head) input.tail else (s, input)

theorem drive_of_not_running {s : σ} (hs : running s = false) (n : ℕ) (input : Stream' ι) :
    drive running iter n s input = (s, input) := by
  cases n <;> simp [drive, hs]

/-- With one iteration more the loop serves the next input, unless it has left. -/
theorem drive_succ (n : ℕ) (s : σ) (input : Stream' ι) :
    (drive running iter (n + 1) s input).1 =
      let r := (drive running iter n s input).1
      if running r then iter r (input.get n) else r := by
  induction n generalizing s input with
  | zero =>
      cases hs : running s <;> simp [drive, hs, Stream'.head, Stream'.get]
  | succ n ih =>
      cases hs : running s with
      | false => simp [drive, hs]
      | true =>
          have hdrive : ∀ m, drive running iter (m + 1) s input =
              drive running iter m (iter s input.head) input.tail := fun m => by simp [drive, hs]
          rw [hdrive, hdrive]
          exact ih (iter s input.head) input.tail

/-- The stopping lines seen when the flag is polled after each of the inputs,
while it stays up before them. -/
def stopsWithin (s : σ) : List ι → Bool
  | [] => false
  | i :: rest => !running (iter s i) || stopsWithin (iter s i) rest

/-- The loop has left within `n` iterations exactly when one of the first `n`
inputs takes the flag down. -/
theorem drive_running (n : ℕ) {s : σ} (hs : running s = true) (input : Stream' ι) :
    running (drive running iter n s input).1 = !stopsWithin running iter s (input.take n) := by
  induction n generalizing s input with
  | zero => simp [drive, stopsWithin, hs]
  | succ n ih =>
      rw [drive, if_pos hs, Stream'.take_succ, stopsWithin]
      by_cases hr : running (iter s input.head) = true
      · rw [ih hr, hr]
        simp
      · have hf : running (iter s input.head) = false := by simpa using hr
        rw [drive_of_not_running running iter hf, hf]
        simp

/-- When the stopping inputs are recognisable, the loop is a plain fold over the
served prefix, and everything behind that prefix is left unread. -/
theorem drive_eq_foldl {stop : ι → Bool} {I : σ → Prop}
    (step : ∀ s i, I s → running s = true → I (iter s i) ∧ running (iter s i) = !stop i)
    (n : ℕ) {s : σ} (hI : I s) (hs : running s = true) (input : Stream' ι) :
    drive running iter n s input =
      ((upToFirst stop (input.take n)).foldl iter s,
        input.drop (upToFirst stop (input.take n)).length) := by
  induction n generalizing s input with
  | zero => rfl
  | succ n ih =>
      obtain ⟨hI', hr⟩ := step s input.head hI hs
      rw [drive, if_pos hs, Stream'.take_succ, upToFirst]
      cases hstop : stop input.head with
      | true =>
          rw [drive_of_not_running running iter (by simpa [hstop] using hr)]
          simp [Stream'.tail_eq_drop]
      | false =>
          rw [ih hI' (by simpa [hstop] using hr)]
          simp [Stream'.tail_eq_drop, Stream'.drop_drop, Nat.add_comm]

section Simulation

variable {τ κ : Type*} {running iter} {running' : τ → Bool} {iter' : τ → κ → τ}

/-- When related states agree on the flag and corresponding inputs lead to related
states, two loops stay related and leave corresponding inputs unread. -/
theorem drive_simulates {R : σ → τ → Prop} {f : ι → κ}
    (hrunning : ∀ s t, R s t → running s = running' t)
    (hiter : ∀ s t i, R s t → R (iter s i) (iter' t (f i))) (n : ℕ) {s : σ} {t : τ}
    (h : R s t) (input : Stream' ι) :
    R (drive running iter n s input).1 (drive running' iter' n t (input.map f)).1 ∧
      (drive running iter n s input).2.map f = (drive running' iter' n t (input.map f)).2 := by
  induction n generalizing s t input with
  | zero => exact ⟨h, rfl⟩
  | succ n ih =>
      rw [drive, drive, ← hrunning s t h]
      by_cases hs : running s = true
      · rw [if_pos hs, if_pos hs]
        exact ih (hiter s t input.head h) input.tail
      · rw [if_neg hs, if_neg hs]
        exact ⟨h, rfl⟩

end Simulation

end Foundation.InterruptibleLoop
