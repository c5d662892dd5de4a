import IoEmulator.CtfIo.Statements

/-!
# The device behind the prompt

A device carries out the statements of a session one after the other, without a
terminal, a command map or a completion. The program does on its lines what the
device does on their statements, whatever the IO layer answers.
-/

namespace IoEmulator.CtfIo

open Conf Termctl Foundation.Enumeration Foundation.FirstWinsMap Foundation.Words
open Foundation.InterruptibleLoop

variable {σ F : Type}

/-- What a session prints: a report of a command, the help text, or the complaint
of the loop about what a command has thrown. -/
inductive Output where
  | report (r : Report)
  | helpText
  | error (e : Exn)
  deriving DecidableEq

def Output.lines : Output → List Line
  | .report r => [r.line]
  | .helpText => helpLines
  | .error e => [.err (Shell.errorLine e)]

theorem flatMap_lines_report (l : List Report) :
    (l.map Output.report).flatMap Output.lines = l.map Report.line := by
  rw [List.flatMap_map]
  exact List.map_eq_flatMap.symm

/-- What the loop reports of an outcome. -/
def thrown : Except Exn Unit → List Output
  | .ok () => []
  | .error e => [.error e]

/-- What a command prints, with what the loop reports of it. -/
def Performed.outputs (r : Performed σ) : List Output := r.printed.map .report ++ thrown r.outcome

def unknownCommand (word : Text) : Exn :=
  .invalidArgument (lit "invalid command \"" ++ word ++ lit "\"")

/-- The IO layer, what has been printed so far, and whether the session is up. -/
structure Device (σ : Type) where
  io : σ
  outputs : List Output := []
  up : Bool := true

variable (P : Platform σ F) (order : IterationOrder Text) (parser : IoParser)

/-- One statement. -/
def Device.step (d : Device σ) : Statement → Device σ
  | .blank => { d with outputs := d.outputs ++ [.error (.invalidArgument (lit "input is empty"))] }
  | .unknown word => { d with outputs := d.outputs ++ [.error (unknownCommand word)] }
  | .help => { d with outputs := d.outputs ++ [.helpText] }
  | .exit => { d with up := false }
  | .ask which args =>
      let r := performCommand P order which args parser d.io
      { d with io := r.io, outputs := d.outputs ++ r.outputs }

/-- What a device prints at a statement. -/
def Device.prints (d : Device σ) : Statement → List Output
  | .blank => [.error (.invalidArgument (lit "input is empty"))]
  | .unknown word => [.error (unknownCommand word)]
  | .help => [.helpText]
  | .exit => []
  | .ask which args => (performCommand P order which args parser d.io).outputs

theorem Device.step_outputs (d : Device σ) (st : Statement) :
    (d.step P order parser st).outputs = d.outputs ++ d.prints P order parser st := by
  cases st with
  | exit => exact (List.append_nil _).symm
  | _ => rfl

/-- The session of a device on a stream of statements, for at most `n` of them. -/
def Device.session (n : ℕ) (io : σ) (input : Stream' Statement) : Device σ × Stream' Statement :=
  drive Device.up (Device.step P order parser) n { io := io } input

/-- The program, for at most `n` iterations on the results of `readline`. -/
def program (name : Text) (n : ℕ) (io : σ) (input : Stream' (Option Text)) :
    Shell (World σ) × Stream' (Option Text) :=
  (Shell.start order [mainCommands P order parser] { parser := parser, io := io }).run name n input

section Execution

/-- What the command behind a statement does in a world. -/
def Statement.called (w : World σ) : Statement → Called (World σ)
  | .blank => { world := w, outcome := .error (.invalidArgument (lit "input is empty")) }
  | .unknown word => { world := w, outcome := .error (unknownCommand word) }
  | .help => { world := w, printed := helpLines }
  | .exit => { world := w, stopped := true }
  | .ask which args => bindParser (performCommand P order which) args w

theorem find_mainCommands_none {word : Text} (h : word ∉ Statement.commandWords) :
    (mainCommands P order parser).find? (fun cmd => cmd.name = word) = none := by
  rw [List.find?_eq_none]
  intro cmd hcmd hname
  have hnames : cmd.name ∈ Statement.commandWords := by
    simp only [mainCommands, List.mem_cons, List.not_mem_nil, or_false] at hcmd
    rcases hcmd with rfl | rfl | rfl | rfl | rfl <;>
      simp [Statement.commandWords, makeHelpCommand, makeExitCommand, makeInfoCommand,
        makeGetCommand, makeSetCommand, BasicCommand.make]
  exact h (of_decide_eq_true hname ▸ hnames)

/-- The words of a line execute the command of their statement. -/
theorem executeCommand_called {s : Shell (World σ)}
    (h : Shell.Resolves (mainCommands P order parser) s) (ws : List Text) (w : World σ) :
    (s.term.cmds.executeCommand (ws.headD []) ws.tail w).toCalled =
      (Statement.ofWords ws).called P order w := by
  rw [Commands.executeCommand, Commands.findCommand, h]
  cases ws with
  | nil => rfl
  | cons word args =>
      by_cases hmem : word ∈ Statement.commandWords
      · simp only [Statement.commandWords, List.mem_cons, List.not_mem_nil, or_false] at hmem
        rcases hmem with rfl | rfl | rfl | rfl | rfl <;> rfl
      · rw [Statement.ofWords_unknown hmem, List.headD_cons,
          find_mainCommands_none P order parser hmem]
        rfl

end Execution

/-- The shell and the device have come to the same point. -/
structure Tracks (s : Shell (World σ)) (d : Device σ) : Prop where
  resolves : Shell.Resolves (mainCommands P order parser) s
  world : s.world = { parser := parser, io := d.io }
  console : s.console = d.outputs.flatMap Output.lines
  running : s.term.running = d.up

/-- What an iteration on a nonempty line leaves, besides the history. -/
theorem iteration_called {W : Type} (s : Shell W) (c : CChar) (line : Text) :
    let r := (s.term.cmds.executeCommand ((words isspace (c :: line)).headD [])
      (words isspace (c :: line)).tail s.world).toCalled
    (s.iteration (some (c :: line))).world = r.world ∧
      (s.iteration (some (c :: line))).console =
        s.console ++ (r.printed ++ (thrown r.outcome).flatMap Output.lines) ∧
      (s.iteration (some (c :: line))).term.running = (s.term.running && !r.stopped) := by
  intro r
  simp only [Shell.iteration, Shell.splitLine_eq]
  cases hout : r.outcome with
  | ok u => exact ⟨rfl, (congrArg _ (List.append_nil _)).symm, rfl⟩
  | error e => exact ⟨rfl, List.append_assoc .., rfl⟩

variable {parser}

/-- A statement does in the world what the device does. -/
theorem called_step {w : World σ} {d : Device σ} (hw : w = { parser := parser, io := d.io })
    (st : Statement) :
    (st.called P order w).world = { parser := parser, io := (d.step P order parser st).io } ∧
      (d.prints P order parser st).flatMap Output.lines = (st.called P order w).printed ++
        (thrown (st.called P order w).outcome).flatMap Output.lines ∧
      (d.step P order parser st).up = (d.up && !(st.called P order w).stopped) := by
  subst hw
  cases st with
  | blank => exact ⟨rfl, rfl, (Bool.and_true _).symm⟩
  | unknown word => exact ⟨rfl, rfl, (Bool.and_true _).symm⟩
  | help => exact ⟨rfl, rfl, (Bool.and_true _).symm⟩
  | exit => exact ⟨rfl, rfl, (Bool.and_false _).symm⟩
  | ask which args =>
      refine ⟨rfl, ?_, (Bool.and_true _).symm⟩
      simp only [Device.prints, Performed.outputs, Statement.called, bindParser,
        List.flatMap_append, flatMap_lines_report]

variable {P order}

/-- One iteration of the program is one statement of the device. -/
theorem Tracks.iteration {s : Shell (World σ)} {d : Device σ} (h : Tracks P order parser s d)
    (input : Option Text) :
    Tracks P order parser (s.iteration input) (d.step P order parser (Statement.ofLine input)) := by
  have hblank : Tracks P order parser (s.report (.invalidArgument (lit "input is empty")))
      (d.step P order parser .blank) := by
    refine ⟨h.resolves, h.world, ?_, h.running⟩
    rw [Shell.report, h.console, Device.step_outputs, List.flatMap_append]
    rfl
  rcases input with _ | _ | ⟨c, line⟩
  case none => exact hblank
  case some.nil => exact hblank
  case some.cons =>
      obtain ⟨hworld, hconsole, hrunning⟩ := iteration_called s c line
      rw [executeCommand_called P order parser h.resolves] at hworld hconsole hrunning
      obtain ⟨hworld', hprints, hup⟩ :=
        called_step P order h.world (Statement.ofWords (words isspace (c :: line)))
      constructor
      · exact h.resolves.iteration _
      · exact hworld.trans hworld'
      · rw [hconsole, ← hprints, h.console, Device.step_outputs, List.flatMap_append]
        rfl
      · rw [hrunning, h.running]
        exact hup.symm

variable (P order parser)

/-- On any input and any IO layer the program comes to the point that the device
comes to on the statements of the lines, and reads as many of them. -/
theorem program_tracks (name : Text) (n : ℕ) (io : σ) (input : Stream' (Option Text)) :
    Tracks P order parser (program P order parser name n io input).1
      (Device.session P order parser n io (input.map Statement.ofLine)).1 ∧
    (program P order parser name n io input).2.map Statement.ofLine =
      (Device.session P order parser n io (input.map Statement.ofLine)).2 := by
  let w : World σ := { parser := parser, io := io }
  have hresolves : Shell.Resolves (mainCommands P order parser)
      (Shell.start order [mainCommands P order parser] w) := by
    simpa using Shell.start_resolves order [mainCommands P order parser] w
  rw [program, Shell.run_eq (Shell.start_idle order [mainCommands P order parser] w)]
  apply drive_simulates (R := Tracks P order parser)
  · exact fun s d h => h.running
  · exact fun s d i h => h.iteration i
  · exact ⟨hresolves, rfl, rfl, rfl⟩

section Served

/-- The statements that a session of at most `n` lines carries out. -/
def servedStatements (n : ℕ) (input : Stream' (Option Text)) : List Statement :=
  upToFirst (fun st => decide (st = .exit)) ((input.take n).map Statement.ofLine)

theorem Device.step_up (d : Device σ) (st : Statement) :
    (d.step P order parser st).up = (d.up && !decide (st = .exit)) := by
  cases st <;> simp [Device.step]

theorem Device.foldl_up (d : Device σ) (sts : List Statement) :
    (sts.foldl (Device.step P order parser) d).up = (d.up && !decide (.exit ∈ sts)) := by
  induction sts generalizing d with
  | nil => simp
  | cons st sts ih =>
      rw [List.foldl_cons, ih, Device.step_up]
      by_cases hst : st = .exit
      · subst hst
        simp
      · simp [hst, Ne.symm hst]

/-- A session carries out the statements up to the first exit. -/
theorem Device.session_eq (n : ℕ) (io : σ) (input : Stream' (Option Text)) :
    (Device.session P order parser n io (input.map Statement.ofLine)).1 =
      (servedStatements n input).foldl (Device.step P order parser) { io := io } := by
  have htake : ∀ n (input : Stream' (Option Text)),
      (input.map Statement.ofLine).take n = (input.take n).map Statement.ofLine := by
    intro n
    induction n with
    | zero => exact fun _ => rfl
    | succ n ih =>
        intro input
        rw [Stream'.take_succ, Stream'.take_succ, List.map_cons, ← ih]
        rfl
  have hstop : ∀ (d : Device σ) st, True → d.up = true →
      True ∧ (d.step P order parser st).up = !decide (st = .exit) := fun d st _ hup =>
    ⟨trivial, by rw [Device.step_up, hup, Bool.true_and]⟩
  have hdrive := drive_eq_foldl Device.up (Device.step P order parser) hstop n
    (s := { io := io }) trivial rfl (input.map Statement.ofLine)
  rw [Device.session, hdrive, servedStatements, ← htake]

theorem typable_of_mem_servedStatements {n : ℕ} {input : Stream' (Option Text)} {st : Statement}
    (h : st ∈ servedStatements n input) : st.Typable := by
  obtain ⟨line, -, rfl⟩ := List.mem_map.mp (upToFirst_subset _ _ h)
  exact Statement.typable_ofLine line

/-- A session of one line that is rendered from a statement serves this statement. -/
theorem servedStatements_render {st : Statement} (h : st.Typable) :
    servedStatements 1 (Stream'.const (some st.render)) = [st] := by
  have hone : ∀ i : Statement, upToFirst (fun st => decide (st = .exit)) [i] = [i] := by
    intro i
    by_cases hi : i = .exit <;> simp [upToFirst, hi]
  change upToFirst _ [Statement.ofLine (some st.render)] = [st]
  rw [Statement.ofLine_render h, hone]

/-- On the line of a statement the program does what the device does once. -/
theorem program_render (name : Text) (io : σ) {st : Statement} (h : st.Typable) :
    Tracks P order parser
      (program P order parser name 1 io (Stream'.const (some st.render))).1
      (Device.step P order parser { io := io } st) := by
  obtain ⟨ht, -⟩ := program_tracks P order parser name 1 io (Stream'.const (some st.render))
  rw [Device.session_eq, servedStatements_render h] at ht
  exact ht

/-- The program goes on as long as no exit is served. -/
theorem program_running_iff (name : Text) (n : ℕ) (io : σ) (input : Stream' (Option Text)) :
    (program P order parser name n io input).1.term.running = true ↔
      .exit ∉ servedStatements n input := by
  obtain ⟨ht, -⟩ := program_tracks P order parser name n io input
  rw [ht.running, Device.session_eq, Device.foldl_up]
  simp

/-- The program leaves what the statements of the lines up to the first exit make
of a device, in a world whose parser is the one it was given. -/
theorem program_device (name : Text) (n : ℕ) (io : σ) (input : Stream' (Option Text)) :
    let s := (program P order parser name n io input).1
    let d := (servedStatements n input).foldl (Device.step P order parser) { io := io }
    s.world = { parser := parser, io := d.io } ∧ s.console = d.outputs.flatMap Output.lines ∧
      (s.term.running = true ↔ .exit ∉ servedStatements n input) := by
  intro s d
  obtain ⟨ht, -⟩ := program_tracks P order parser name n io input
  rw [Device.session_eq] at ht
  exact ⟨ht.world, ht.console, program_running_iff P order parser name n io input⟩

/-- The plainest line that asks for the same. Null and empty lines become the empty
line and a line of whitespace one blank. Of `help`, `exit` and words that name no
command the word is left without what follows it, and the words of any other line
are set one blank apart. -/
def canonicalLine (line : Option Text) : Option Text := some (Statement.ofLine line).render

/-- The program does not tell a line from its canonical one. -/
theorem program_canonical (name : Text) (n : ℕ) (io : σ) (input : Stream' (Option Text)) :
    let s := (program P order parser name n io input).1
    let s' := (program P order parser name n io (input.map canonicalLine)).1
    s.world = s'.world ∧ s.console = s'.console ∧ s.term.running = s'.term.running := by
  intro s s'
  obtain ⟨ht, -⟩ := program_tracks P order parser name n io input
  obtain ⟨ht', -⟩ := program_tracks P order parser name n io (input.map canonicalLine)
  have hsame : (input.map canonicalLine).map Statement.ofLine = input.map Statement.ofLine := by
    rw [Stream'.map_map]
    congr 1
    funext line
    exact Statement.ofLine_render (Statement.typable_ofLine line)
  rw [hsame] at ht'
  exact ⟨ht.world.trans ht'.world.symm, ht.console.trans ht'.console.symm,
    ht.running.trans ht'.running.symm⟩

/-- The program on a script that is followed by the end of the input, as far as
the script goes. -/
def programOn (name : Text) (io : σ) (lines : List (Option Text)) : Shell (World σ) :=
  (program P order parser name lines.length io (lines ++ₛ Stream'.const none)).1

theorem servedStatements_append (lines : List (Option Text)) :
    servedStatements lines.length (lines ++ₛ Stream'.const none) =
      upToFirst (fun st => decide (st = .exit)) (lines.map Statement.ofLine) := by
  rw [servedStatements, Stream'.take_append_of_le_length _ _ _ (le_refl _), List.take_length]

end Served

end IoEmulator.CtfIo
