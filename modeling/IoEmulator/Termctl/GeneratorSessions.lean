import IoEmulator.Termctl.Completion

/-!
# Sessions of the completion generator

The generator is called with any texts and states in any order. A session begins
with state zero, delivers every match once and then stays silent until the next
call with state zero, whatever is asked in between.
-/

namespace IoEmulator.Termctl

open Foundation.Enumeration Foundation.KeySets

namespace Completion

/-- One call of `generator`, with its text and state. -/
def ask (call : Text × Int) (c : Completion) : Option Text × Completion :=
  c.generator call.1 call.2

/-- The object after a list of calls. -/
def afterCalls (history : List (Text × Int)) (c : Completion) : Completion :=
  history.foldl (fun c call => (c.ask call).2) c

/-- The calls with states `n, n + 1, ...` of a session for `text`. -/
def sessionCalls (text : Text) (n calls : ℕ) : List (Text × Int) :=
  (List.range' n calls).map fun state => (text, (state : Int))

theorem sessionCalls_succ (text : Text) (n calls : ℕ) :
    sessionCalls text n (calls + 1) = (text, (n : Int)) :: sessionCalls text (n + 1) calls := rfl

@[simp] theorem afterCalls_items (history : List (Text × Int)) (c : Completion) :
    (c.afterCalls history).items = c.items := by
  induction history generalizing c with
  | nil => rfl
  | cons call history ih =>
      rw [afterCalls, List.foldl_cons]
      exact (ih _).trans (generator_items call.1 call.2 c)

/-- At the end of the items a call with a nonzero state answers nothing and stays
there. -/
theorem ask_of_exhausted {c : Completion} (h : c.iter = []) {call : Text × Int}
    (hstate : call.2 ≠ 0) : (c.ask call).1 = none ∧ (c.ask call).2.iter = [] := by
  unfold ask generator
  split
  · simp [start, hstate, h]
  · simp [start, hstate, h, advance]

/-- A call with nothing left to deliver moves to the end of the items. -/
theorem ask_of_awaiting_nil {text : Text} (ht : text ≠ []) {n : ℕ} {c : Completion}
    (h : c.Awaiting text n []) : (c.ask (text, n)).1 = none ∧ (c.ask (text, n)).2.iter = [] := by
  simp only [Awaiting, if_neg ht] at h
  simp [ask, generator, ht, advance_of_filter_nil _ h.symm]

/-- A session that still has `r` to deliver delivers it, then nothing, and then
nothing to any call that does not begin a session. -/
theorem answers_of_awaiting {text : Text} (ht : text ≠ []) {further : List (Text × Int)}
    (hfurther : ∀ call ∈ further, call.2 ≠ 0) {n : ℕ} {c : Completion} {r : List Text}
    (h : c.Awaiting text n r) :
    answers ask (sessionCalls text n (r.length + 1) ++ further) c =
      r.map some ++ none :: further.map fun _ => none := by
  induction r generalizing n c with
  | nil =>
      obtain ⟨hnone, hend⟩ := ask_of_awaiting_nil ht h
      have hsilent := answers_const ask (I := fun c => c.iter = [])
        (fun call c hstate hc => ask_of_exhausted hc hstate) hfurther hend
      simpa [sessionCalls, answers, hnone] using hsilent
  | cons a r ih =>
      obtain ⟨hout, hrest⟩ := awaiting_cons h
      rw [List.length_cons, sessionCalls_succ]
      exact congrArg₂ List.cons hout (ih hrest)

/-- After any calls whatever, a session for a nonempty text delivers each item that
has it as a prefix once and nothing else, one item a call, then nothing for as
long as no session begins. A session for the empty text delivers nothing. -/
theorem generator_enumerates (order : IterationOrder Text) (items : KeySet Text)
    (history : List (Text × Int)) (text : Text) :
    let c := (makeUnique order items).afterCalls history
    (text ≠ [] → ∃ found : List Text, found.Nodup ∧ (∀ n, n ∈ found ↔ n ∈ items ∧ text <+: n) ∧
      ∀ further : List (Text × Int), (∀ call ∈ further, call.2 ≠ 0) →
        answers ask (sessionCalls text 0 (found.length + 1) ++ further) c =
          found.map some ++ none :: further.map fun _ => none) ∧
    ∀ state, (c.generator [] state).1 = none := by
  intro c
  refine ⟨fun ht => ⟨c.offers text, c.nodup_offers text, fun n => ?_, fun further hfurther => ?_⟩,
    fun state => ?_⟩
  · rw [mem_offers, afterCalls_items, mem_makeUnique]
    exact and_iff_right ht
  · exact answers_of_awaiting ht hfurther (c.awaiting_zero text)
  · simp [generator]

end Completion

end IoEmulator.Termctl
