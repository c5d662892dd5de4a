import IoEmulator.CtfIo.Commands
import IoEmulator.Termctl.ScriptExecution

/-!
# The program

`main` registers help, exit, info, get and set in one batch and runs the loop.
Of these commands only exit calls `stop`, so the program ends on an input
exactly when one of its lines begins with the word `exit`.
-/

namespace IoEmulator.CtfIo

open Termctl Foundation.Enumeration Foundation.Words

variable {σ F : Type} (P : Platform σ F) (order : IterationOrder Text) (parser : Conf.IoParser)

/-- The batch that `main` registers. -/
def mainCommands : List (BasicCommand (World σ)) :=
  [makeHelpCommand order, makeExitCommand, makeInfoCommand order parser,
    makeGetCommand P order parser, makeSetCommand P order parser]

theorem mainCommands_neverStop :
    ∀ cmd ∈ mainCommands P order parser, cmd ≠ makeExitCommand → cmd.NeverStops := by
  intro cmd hcmd hne exec hexec args w
  simp only [mainCommands, List.mem_cons, List.not_mem_nil, or_false] at hcmd
  rcases hcmd with rfl | rfl | rfl | rfl | rfl
  · obtain rfl := Option.some.inj hexec
    rfl
  · exact absurd rfl hne
  · obtain rfl := Option.some.inj hexec
    rfl
  · obtain rfl := Option.some.inj hexec
    rfl
  · obtain rfl := Option.some.inj hexec
    rfl

/-- Only the word `exit` names the exit command. -/
theorem mainCommands_find (word : Text) :
    (mainCommands P order parser).find? (fun cmd => cmd.name = word) = some makeExitCommand ↔
      word = lit "exit" := by
  constructor
  · intro h
    have := List.find?_some h
    simpa [makeExitCommand, eq_comm] using this
  · rintro rfl
    rfl

theorem exitLine_mainCommands (input : Option Text) :
    Shell.exitLine (mainCommands P order parser) input = true ↔
      ∃ line, input = some line ∧ (words isspace line).head? = some (lit "exit") := by
  have hhead : ∀ ws : List Text, ws.headD [] = lit "exit" ↔ ws.head? = some (lit "exit") := by
    intro ws
    cases ws with
    | nil => decide
    | cons w ws => simp
  rw [Shell.exitLine_iff]
  match input with
  | none => simp [Shell.invocation]
  | some [] => simp [Shell.invocation]
  | some (c :: line) =>
      simp only [Shell.invocation, Option.map_eq_some_iff, Prod.mk.injEq, Option.some.injEq,
        exists_eq_left', ← hhead, ← mainCommands_find P order parser]
      constructor
      · rintro ⟨args, cmd, hfind, rfl, -⟩
        exact hfind
      · intro hfind
        exact ⟨_, _, hfind, rfl, rfl⟩

/-- The program ends on an input exactly when one of its lines has `exit` for its
first word. -/
theorem program_returns_iff (io : σ) (name : Text) (lines : List (Option Text)) :
    Shell.ReturnsOn order [mainCommands P order parser] { parser := parser, io := io } name lines ↔
      ∃ line, some line ∈ lines ∧ (words isspace line).head? = some (lit "exit") := by
  have hothers : ∀ cmd ∈ [mainCommands P order parser].flatten, cmd ≠ makeExitCommand →
      cmd.NeverStops := by
    simpa using mainCommands_neverStop P order parser
  rw [Shell.returnsOn_iff_stopsScript, Shell.stopsScript_eq_any hothers, List.any_eq_true]
  simp only [List.flatten_singleton, exitLine_mainCommands]
  constructor
  · rintro ⟨input, hmem, line, rfl, hword⟩
    exact ⟨line, hmem, hword⟩
  · rintro ⟨line, hmem, hword⟩
    exact ⟨some line, hmem, line, rfl, hword⟩

end IoEmulator.CtfIo
