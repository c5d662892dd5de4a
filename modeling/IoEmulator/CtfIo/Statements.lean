import IoEmulator.CtfIo.Arguments
import IoEmulator.CtfIo.Program

/-!
# The language of the prompt

A line asks for one statement, read off its words. The statements that can be asked
for are those whose arguments are words, and each of them is read back from the
line that it is rendered as.
-/

namespace IoEmulator.CtfIo

open Conf Termctl Foundation.Enumeration Foundation.FirstWinsMap Foundation.Words
open Foundation.InterruptibleLoop

variable {σ F : Type}

/-- What a line asks for. -/
inductive Statement where
  | blank
  | unknown (word : Text)
  | help
  | exit
  | ask (which : Which) (args : List Text)
  deriving DecidableEq

/-- The word that names a command. -/
def Which.word : Which → Text
  | .get => lit "get"
  | .set => lit "set"
  | .info => lit "info"

namespace Statement

/-- The first word names the command. -/
def ofWords : List Text → Statement
  | [] => .unknown []
  | word :: args =>
      if word = lit "help" then .help
      else if word = lit "exit" then .exit
      else if word = lit "info" then .ask .info args
      else if word = lit "get" then .ask .get args
      else if word = lit "set" then .ask .set args
      else .unknown word

/-- The statement of a result of `readline`. -/
def ofLine : Option Text → Statement
  | none => .blank
  | some [] => .blank
  | some line => ofWords (words isspace line)

/-- A line that asks for the statement. -/
def render : Statement → Text
  | .blank => []
  | .unknown word => if word = [] then [space] else word
  | .help => lit "help"
  | .exit => lit "exit"
  | .ask which args => [space].intercalate (which.word :: args)

/-- A nonempty text without whitespace. -/
def IsWord (w : Text) : Prop := w ≠ [] ∧ ∀ c ∈ w, isspace c = false

instance : DecidablePred IsWord := fun _ => inferInstanceAs (Decidable (_ ∧ _))

/-- The words that name a command. -/
def commandWords : List Text := [lit "help", lit "exit", lit "info", lit "get", lit "set"]

/-- The statement can be typed. -/
def Typable : Statement → Prop
  | .unknown word => word = [] ∨ IsWord word ∧ word ∉ commandWords
  | .ask _ args => ∀ w ∈ args, IsWord w
  | _ => True

theorem isWord_of_mem_commandWords {w : Text} (h : w ∈ commandWords) : IsWord w := by
  simp only [commandWords, List.mem_cons, List.not_mem_nil, or_false] at h
  rcases h with rfl | rfl | rfl | rfl | rfl <;>
    exact ⟨by decide, isspace_eq_false_of_all rfl⟩

theorem Which.word_mem (which : Which) : which.word ∈ commandWords := by
  cases which <;> decide

theorem ofWords_ask (which : Which) (args : List Text) :
    ofWords (which.word :: args) = .ask which args := by
  cases which <;> rfl

theorem ofLine_of_ne_nil {line : Text} (h : line ≠ []) :
    ofLine (some line) = ofWords (words isspace line) := by
  obtain ⟨c, line, rfl⟩ := List.exists_cons_of_ne_nil h
  rfl

theorem ofWords_unknown {w : Text} (hw : w ∉ commandWords) (args : List Text) :
    ofWords (w :: args) = .unknown w := by
  simp only [commandWords, List.mem_cons, List.not_mem_nil, or_false, not_or] at hw
  obtain ⟨hhelp, hexit, hinfo, hget, hset⟩ := hw
  rw [ofWords, if_neg hhelp, if_neg hexit, if_neg hinfo, if_neg hget, if_neg hset]

theorem ofWords_eq_exit_iff (ws : List Text) :
    ofWords ws = .exit ↔ ws.head? = some (lit "exit") := by
  cases ws with
  | nil => simp [ofWords]
  | cons word args =>
      rw [List.head?_cons, Option.some.injEq]
      by_cases hmem : word ∈ commandWords
      · simp only [commandWords, List.mem_cons, List.not_mem_nil, or_false] at hmem
        rcases hmem with rfl | rfl | rfl | rfl | rfl
        · exact iff_of_false (by rintro ⟨⟩) (by decide)
        · exact iff_of_true rfl rfl
        · exact iff_of_false (by rintro ⟨⟩) (by decide)
        · exact iff_of_false (by rintro ⟨⟩) (by decide)
        · exact iff_of_false (by rintro ⟨⟩) (by decide)
      · rw [ofWords_unknown hmem]
        refine iff_of_false (by rintro ⟨⟩) ?_
        rintro rfl
        exact hmem (by decide)

theorem ofLine_eq_exit_iff (input : Option Text) :
    ofLine input = .exit ↔
      ∃ line, input = some line ∧ (words isspace line).head? = some (lit "exit") := by
  match input with
  | none => simp [ofLine]
  | some [] => simp [ofLine]
  | some (c :: line) =>
      simp only [Option.some.injEq, exists_eq_left']
      exact ofWords_eq_exit_iff _

/-- The words of a line make a statement that can be typed. -/
theorem typable_ofWords {ws : List Text} (h : ∀ w ∈ ws, IsWord w) : (ofWords ws).Typable := by
  cases ws with
  | nil => exact Or.inl rfl
  | cons word args =>
      obtain ⟨hword, hargs⟩ := List.forall_mem_cons.mp h
      by_cases hmem : word ∈ commandWords
      · simp only [commandWords, List.mem_cons, List.not_mem_nil, or_false] at hmem
        rcases hmem with rfl | rfl | rfl | rfl | rfl
        · trivial
        · trivial
        · exact hargs
        · exact hargs
        · exact hargs
      · rw [ofWords_unknown hmem]
        exact Or.inr ⟨hword, hmem⟩

theorem typable_ofLine (input : Option Text) : (ofLine input).Typable := by
  match input with
  | none => trivial
  | some [] => trivial
  | some (c :: line) => exact typable_ofWords fun w hw => mem_words isspace hw

theorem ofLine_render {st : Statement} (h : st.Typable) : ofLine (some st.render) = st := by
  cases st with
  | blank => rfl
  | help => rfl
  | exit => rfl
  | unknown word =>
      rcases h with rfl | ⟨hword, hmem⟩
      · rfl
      · rw [render, if_neg hword.1, ofLine_of_ne_nil hword.1,
          words_of_run isspace hword.1 hword.2, ofWords_unknown hmem]
  | ask which args =>
      have hwords : ∀ w ∈ which.word :: args, w ≠ [] ∧ ∀ c ∈ w, isspace c = false :=
        List.forall_mem_cons.mpr ⟨isWord_of_mem_commandWords (Which.word_mem which), h⟩
      have hline := words_intercalate isspace isspace_space hwords
      have hne : [space].intercalate (which.word :: args) ≠ [] := by
        intro hnil
        rw [hnil] at hline
        cases hline
      rw [render, ofLine_of_ne_nil hne, hline, ofWords_ask]

/-- Exactly the statements whose arguments are words can be typed, and each of
them is read back from the line it is rendered as. -/
theorem typable_iff (st : Statement) :
    (st.Typable ↔ ofLine (some st.render) = st) ∧
      (st.Typable ↔ ∃ input, ofLine input = st) := by
  have hrange : ∀ input, ofLine input = st → st.Typable := by
    rintro input rfl
    exact typable_ofLine input
  refine ⟨⟨ofLine_render, hrange _⟩, fun h => ⟨_, ofLine_render h⟩, ?_⟩
  rintro ⟨input, h⟩
  exact hrange input h

end Statement

end IoEmulator.CtfIo
