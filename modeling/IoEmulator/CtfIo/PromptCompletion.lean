import IoEmulator.CtfIo.Device
import IoEmulator.Termctl.EditedSessions

/-!
# What the prompt offers

The program's own commands behind the general completion: the five names at the
start of a line, and the item names of the configuration behind the three
commands that take one.
-/

namespace IoEmulator.CtfIo

open Conf Termctl Foundation.Enumeration Foundation.FirstWinsMap Foundation.KeySets

variable {σ F : Type} (P : Platform σ F) (order : IterationOrder Text) (parser : IoParser)

/-- The words that take the name of an item. -/
def itemWords : List Text := [Which.get.word, Which.set.word, Which.info.word]

/-- The names that complete a text at a point of a line. -/
def Offered (line text : Text) (point : ℕ) (c : Text) : Prop :=
  text ≠ [] ∧ text <+: c ∧
    if point = 0 then c ∈ Statement.commandWords
    else Terminal.completionWord line point ∈ itemWords ∧ c ∈ parser.itemKeys

/-- The parameters of the command that a word names. -/
theorem params_mainCommands (word c : Text) :
    (∃ cmd, (mainCommands P order parser).find? (fun cmd => cmd.name = word) = some cmd ∧
      c ∈ cmd.params) ↔ word ∈ itemWords ∧ c ∈ parser.itemKeys := by
  have hfound : ∀ {cmd : BasicCommand (World σ)},
      (mainCommands P order parser).find? (fun cmd => cmd.name = word) = some cmd →
      (c ∈ cmd.params ↔ word ∈ itemWords ∧ c ∈ parser.itemKeys) →
      ((∃ cmd, (mainCommands P order parser).find? (fun cmd => cmd.name = word) = some cmd ∧
        c ∈ cmd.params) ↔ word ∈ itemWords ∧ c ∈ parser.itemKeys) := by
    intro cmd hfind hc
    rw [hfind, ← hc]
    simp
  have hmake : ∀ name exec items, name ∈ itemWords →
      (c ∈ (BasicCommand.make (W := World σ) order name exec items).params ↔
        name ∈ itemWords ∧ c ∈ items) := by
    intro name exec items hname
    simp [hname]
  by_cases hmem : word ∈ Statement.commandWords
  · simp only [Statement.commandWords, List.mem_cons, List.not_mem_nil, or_false] at hmem
    rcases hmem with rfl | rfl | rfl | rfl | rfl
    · refine hfound (show _ = some (makeHelpCommand order) from rfl) (iff_of_false ?_ ?_)
      · simp [makeHelpCommand]
      · exact fun h => absurd h.1 (by decide)
    · refine hfound (show _ = some makeExitCommand from rfl) (iff_of_false ?_ ?_)
      · simp [makeExitCommand, BasicCommand.params]
      · exact fun h => absurd h.1 (by decide)
    · exact hfound (show _ = some (makeInfoCommand order parser) from rfl)
        (hmake _ _ _ (by decide))
    · exact hfound (show _ = some (makeGetCommand P order parser) from rfl)
        (hmake _ _ _ (by decide))
    · exact hfound (show _ = some (makeSetCommand P order parser) from rfl)
        (hmake _ _ _ (by decide))
  · have hword : word ∉ itemWords := by
      intro h
      simp only [itemWords, List.mem_cons, List.not_mem_nil, or_false] at h
      rcases h with rfl | rfl | rfl <;> exact hmem (by decide)
    rw [find_mainCommands_none P order parser hmem]
    simp [hword]

/-- The name completion of a single registration, and what its commands offer. -/
theorem mem_answer_mainCommands (line text : Text) (point : ℕ) (c : Text) (w : World σ) :
    c ∈ (Shell.start order [mainCommands P order parser] w).term.answer line text point ↔
      Offered parser line text point c := by
  have hnames : (∃ cmd ∈ mainCommands P order parser, cmd.name = c) ↔
      c ∈ Statement.commandWords := by
    simp [mainCommands, Statement.commandWords, makeHelpCommand, makeExitCommand, makeInfoCommand,
      makeGetCommand, makeSetCommand, BasicCommand.make, eq_comm]
  have hterm : (Shell.start order [mainCommands P order parser] w).term =
      ({} : Terminal (World σ)).registerCommands order (mainCommands P order parser) := rfl
  rw [hterm, Offered, Terminal.answer]
  by_cases hpoint : point = 0
  · rw [if_pos hpoint, if_pos hpoint, Terminal.registerCommands_cmdCompletion]
    simp only [Option.map_some, Option.getD_some, Completion.mem_offers,
      Completion.mem_makeUnique, KeySet.mem_insertAll, KeySet.notMem_empty, List.mem_map, hnames]
    tauto
  · rw [if_neg hpoint, if_neg hpoint, Terminal.registerCommands_cmds, find_indexBy_empty,
      ← params_mainCommands P order parser]
    cases (mainCommands P order parser).find? fun cmd =>
        cmd.name = Terminal.completionWord line point with
    | none => simp
    | some cmd =>
        simp only [Option.map_some, Option.getD_some, BasicCommand.mem_offers,
          Option.some.injEq, exists_eq_left']
        tauto

/-- At any moment of a session, whatever has been typed, completed and executed
before, a request is answered with exactly the names on offer, each once. -/
theorem program_completion (io : σ) (name : Text) (n : ℕ) (input : Stream' EditedLine)
    (events : List Terminal.CompletionEvent) :
    ∃ s t, (Shell.editedRun name n (Shell.start order [mainCommands P order parser]
        { parser := parser, io := io }) input).1 = .ok s ∧
      Terminal.runEvents events s.term = .ok t ∧
      ∀ line text point, ∃ found : List Text, found.Nodup ∧
        (∀ c, c ∈ found ↔ Offered parser line text point c) ∧
        ∀ fuel, found.length < fuel →
          ∃ t', t.commandCompletion fuel line text point = .ok (found, t') := by
  obtain ⟨s, hs, -, -, hset⟩ := Shell.editedRun_settled order (mainCommands P order parser) []
    { parser := parser, io := io } name n input
  obtain ⟨t, hrun, ht⟩ := hset.run events
  refine ⟨s, t, hs, hrun, fun line text point => ?_⟩
  refine ⟨_, Terminal.nodup_answer _ line text point, fun c => ?_,
    fun fuel hfuel => ht.commandCompletion line text point hfuel⟩
  exact mem_answer_mainCommands P order parser line text point c { parser := parser, io := io }

end IoEmulator.CtfIo
