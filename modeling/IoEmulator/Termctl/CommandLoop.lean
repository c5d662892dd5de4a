import IoEmulator.Termctl.Terminal
import IoEmulator.Foundation.Words
import IoEmulator.Foundation.InterruptibleLoop

/-!
# The command loop

`terminal::run` reads lines until a command calls `stop`. One iteration splits a
line by stream extraction, stores it in the history and executes the command it
names; every exception is reported and ends the iteration, not the loop.

## Implementation notes

The results of `readline` form an infinite stream in which null is `none`.
Completion requests made while a line is edited only move cursors, which no
execution reads, and are left out here. The check `iss.good()` is not modelled: a
string stream is good when it has just been made.
-/

namespace IoEmulator.Termctl

open Foundation.Enumeration Foundation.FirstWinsMap Foundation.Words Foundation.InterruptibleLoop

variable {W : Type}

/-- `make_exit_command`: its execution calls `terminal::shared().stop()`. -/
def makeExitCommand : BasicCommand W where
  name := lit "exit"
  exec := some fun _ w => { world := w, stopped := true }
  paramCompletion := none

/-- The terminal in its surroundings: the world its commands act on, the
`readline` history, the calls of executions so far, and what has been written to
the standard streams, in order. -/
structure Shell (W : Type) where
  term : Terminal W
  world : W
  history : List Text := []
  calls : List (Execution W × List Text) := []
  console : List Line := []

namespace Shell

/-- What the two `catch` clauses of the loop print. -/
def errorLine (e : Exn) : Text :=
  match e.what with
  | some what => lit "Error: " ++ what
  | none => lit "Error: unexpected error"

def report (e : Exn) (s : Shell W) : Shell W :=
  { s with console := s.console ++ [.err (errorLine e)] }

/-- What `run` prints when it is called from a command. -/
def alreadyRunning (s : Shell W) : Shell W :=
  { s with console := s.console ++ [.err (lit "Warning: terminal is already running ...")] }

/-- The extractions `iss >> cmd` and `while (iss >> arg)`. A failed first
extraction leaves `cmd` empty and lets no other succeed. -/
def splitLine (line : Text) : Text × List Text :=
  match nextWord isspace line with
  | none => ([], [])
  | some (cmd, rest) => (cmd, readWords isspace rest)

/-- One iteration on one result of `readline`. -/
def iteration (s : Shell W) (input : Option Text) : Shell W :=
  match input with
  | none => s.report (.invalidArgument (lit "input is empty"))
  | some [] => s.report (.invalidArgument (lit "input is empty"))
  | some line =>
      let (cmd, args) := splitLine line
      let r := s.term.cmds.executeCommand cmd args s.world
      let s₁ : Shell W :=
        { term := { s.term with running := s.term.running && !r.stopped }
          world := r.world
          history := s.history ++ [line]
          calls := s.calls ++ r.calls
          console := s.console ++ r.printed }
      match r.outcome with
      | .ok () => s₁
      | .error e => s₁.report e

/-- `terminal::run`, for at most `fuel` iterations, with the input it leaves
unread. It has returned when the running flag is down. -/
def run (name : Text) (fuel : ℕ) (s : Shell W) (input : Stream' (Option Text)) :
    Shell W × Stream' (Option Text) :=
  if s.term.running then (s.alreadyRunning, input)
  else
    drive (fun s => s.term.running) iteration fuel
      { s with term := ({ s.term with running := true } : Terminal W).setPrompt name } input

section Script

/-- What a line asks for: the first registered command whose name is the first
whitespace-free run of the line, and the remaining runs. Null and empty lines
ask for nothing. -/
def invocation (registered : List (BasicCommand W)) :
    Option Text → Option (BasicCommand W × List Text)
  | none => none
  | some [] => none
  | some line =>
      (registered.find? fun cmd => cmd.name = (words isspace line).headD []).map fun cmd =>
        (cmd, (words isspace line).tail)

/-- The function that a line makes the loop call, with its arguments. -/
def execution (registered : List (BasicCommand W)) (input : Option Text) :
    Option (Execution W × List Text) :=
  (invocation registered input).bind fun (cmd, args) => cmd.exec.map fun exec => (exec, args)

/-- The history entry of a result of `readline`. -/
def entry : Option Text → Option Text
  | none => none
  | some [] => none
  | some line => some line

/-- The world after the function that a line calls. -/
def worldAfter (registered : List (BasicCommand W)) (w : W) (input : Option Text) : W :=
  match execution registered input with
  | none => w
  | some (exec, args) => (exec args w).world

/-- Whether the function that a line calls calls `stop`. -/
def stopsOn (registered : List (BasicCommand W)) (w : W) (input : Option Text) : Bool :=
  match execution registered input with
  | none => false
  | some (exec, args) => (exec args w).stopped

/-- Whether some line of a script calls `stop`, each line being executed in the
world the lines before it have left. -/
def stopsScript (registered : List (BasicCommand W)) : W → List (Option Text) → Bool
  | _, [] => false
  | w, input :: rest =>
      stopsOn registered w input || stopsScript registered (worldAfter registered w input) rest

/-- Stream extraction splits a line into its maximal whitespace-free runs. -/
theorem splitLine_eq (line : Text) :
    splitLine line = ((words isspace line).headD [], (words isspace line).tail) := by
  unfold splitLine
  cases h : nextWord isspace line with
  | none => simp [nextWord_none isspace h]
  | some p => simp [nextWord_some isspace (w := p.1) (r := p.2) h, readWords_eq_words]

/-- The terminal resolves names as the list of registered commands does. -/
def Resolves (registered : List (BasicCommand W)) (s : Shell W) : Prop :=
  ∀ name, s.term.cmds.find name = registered.find? fun cmd => cmd.name = name

/-- Executing a command calls its function, if it has one, once. -/
theorem execute_spec (cmd : BasicCommand W) (args : List Text) (w : W) :
    (cmd.execute args w).calls = (cmd.exec.map fun exec => (exec, args)).toList ∧
      (cmd.execute args w).world = (cmd.exec.map fun exec => (exec args w).world).getD w ∧
      (cmd.execute args w).stopped =
        (cmd.exec.map fun exec => (exec args w).stopped).getD false := by
  unfold BasicCommand.execute
  cases cmd.exec with
  | none => exact ⟨rfl, rfl, rfl⟩
  | some exec => exact ⟨rfl, rfl, rfl⟩

/-- Everything an iteration does, on any input and however the command ends. -/
theorem iteration_spec {registered : List (BasicCommand W)} {s : Shell W}
    (h : Resolves registered s) (input : Option Text) :
    (s.iteration input).term.cmds = s.term.cmds ∧
      (s.iteration input).term.running = (s.term.running && !stopsOn registered s.world input) ∧
      (s.iteration input).world = worldAfter registered s.world input ∧
      (s.iteration input).history = s.history ++ (entry input).toList ∧
      (s.iteration input).calls = s.calls ++ (execution registered input).toList := by
  match input with
  | none => simp [iteration, report, stopsOn, worldAfter, entry, execution, invocation]
  | some [] => simp [iteration, report, stopsOn, worldAfter, entry, execution, invocation]
  | some (c :: line) =>
      have hl := h ((words isspace (c :: line)).headD [])
      simp only [iteration, splitLine_eq, Commands.executeCommand, Commands.findCommand, stopsOn,
        worldAfter, entry, execution, invocation, ← hl]
      cases s.term.cmds.find ((words isspace (c :: line)).headD []) with
      | none => simp [report]
      | some cmd =>
          obtain ⟨hcalls, hworld, hstopped⟩ :=
            execute_spec cmd (words isspace (c :: line)).tail s.world
          simp only [Option.map_some, Option.bind_some, hcalls, hworld, hstopped]
          cases cmd.exec with
          | none =>
              cases (cmd.execute (words isspace (c :: line)).tail s.world).outcome with
              | ok u => simp
              | error e => simp [report]
          | some exec =>
              cases (cmd.execute (words isspace (c :: line)).tail s.world).outcome with
              | ok u => simp
              | error e => simp [report]

theorem Resolves.iteration {registered : List (BasicCommand W)} {s : Shell W}
    (h : Resolves registered s) (input : Option Text) :
    Resolves registered (s.iteration input) := by
  intro name
  rw [(iteration_spec h input).1]
  exact h name

/-- The recorded effects of serving a list of inputs, whatever the outcomes. -/
theorem foldl_iteration {registered : List (BasicCommand W)} {s : Shell W}
    (h : Resolves registered s) (served : List (Option Text)) :
    (served.foldl iteration s).world = served.foldl (worldAfter registered) s.world ∧
      (served.foldl iteration s).history = s.history ++ served.filterMap entry ∧
      (served.foldl iteration s).calls =
        s.calls ++ served.filterMap (execution registered) := by
  induction served generalizing s with
  | nil => simp
  | cons input rest ih =>
      obtain ⟨-, -, hworld, hhist, hcalls⟩ := iteration_spec h input
      obtain ⟨ihw, ihh, ihc⟩ := ih (h.iteration input)
      simp only [List.foldl_cons]
      refine ⟨by rw [ihw, hworld], ?_, ?_⟩
      · rw [ihh, hhist, List.append_assoc]
        cases he : entry input <;> simp [he]
      · rw [ihc, hcalls, List.append_assoc]
        cases hi : execution registered input <;> simp [hi]

/-- The loop's own view of when it is stopped is the script's. -/
theorem stopsWithin_eq {registered : List (BasicCommand W)} {s : Shell W}
    (h : Resolves registered s) (hs : s.term.running = true) (inputs : List (Option Text)) :
    stopsWithin (fun s : Shell W => s.term.running) iteration s inputs =
      stopsScript registered s.world inputs := by
  induction inputs generalizing s with
  | nil => rfl
  | cons input rest ih =>
      obtain ⟨-, hrun, hworld, -, -⟩ := iteration_spec h input
      rw [stopsWithin, stopsScript, hrun, hs]
      cases hst : stopsOn registered s.world input with
      | true => simp
      | false => rw [ih (h.iteration input) (by simp [hrun, hs, hst]), hworld]; simp

/-- The shell in which the loop of `run` starts. -/
theorem run_eq {s : Shell W} (hs : s.term.running = false) (name : Text) (fuel : ℕ)
    (input : Stream' (Option Text)) :
    s.run name fuel input = drive (fun s : Shell W => s.term.running) iteration fuel
      { s with term := ({ s.term with running := true } : Terminal W).setPrompt name } input := by
  simp [run, hs]

end Script

end Shell

end IoEmulator.Termctl
