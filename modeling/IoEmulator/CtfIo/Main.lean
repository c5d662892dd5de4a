import IoEmulator.CtfIo.Device
import IoEmulator.Conf.Acceptance

/-!
# From start-up to exit status

`main` starts up under CTF when it is built for it, constructs the parser from
the environment, runs the program and shuts CTF down. When it ends, with which
status, and what it leaves undone.

## Implementation notes

What CTF answers is a parameter, and the calls to it are recorded. The functions
of CTF are taken to return. A run has no status while the loop goes on.
-/

namespace IoEmulator.CtfIo

open Conf Termctl Foundation.Enumeration Foundation.FirstWinsMap Foundation.Words
open Foundation.InterruptibleLoop

variable {σ F : Type}

def termName : Text := lit "iotest"

/-- What CTF answers to the checks at start-up. -/
structure Ctf where
  commandLine : Bool
  moduleName : Option Text
  running : Bool
  projCfg : Bool
  ioClient : Except Int32 Unit

/-- The calls to CTF and the IO layer that have an effect. -/
inductive CtfCall where
  | log (text : Text)
  | setLogModuleName (name : Text)
  | loadProjCfg (ok : Bool)
  | releaseProjCfg
  | initClient (ok : Bool)
  | uninitClient
  | setRunningFlag (name : Text)
  | waitExitSignal (name : Text)
  | exitTask (name : Text)
  deriving DecidableEq

/-- The first block under `CTF_CLI`: the calls it makes, and the prompt when it
does not return. -/
def startUp (ctf : Ctf) (argv0 : Text) : List CtfCall × Option Text :=
  if ctf.commandLine then
    match ctf.moduleName with
    | none => ([.log (lit "failed to load module name")], none)
    | some name =>
        if ctf.running then
          ([.setLogModuleName name, .log (lit "[" ++ name ++ lit "] is already running ..."),
            .exitTask name], none)
        else if ctf.projCfg then
          match ctf.ioClient with
          | .error code =>
              ([.setLogModuleName name, .loadProjCfg true, .initClient false,
                .log (lit "[" ++ name ++ lit "] failed to init the client of IO layer, code: " ++
                  intToString code), .releaseProjCfg, .exitTask name], none)
          | .ok () => ([.setLogModuleName name, .loadProjCfg true, .initClient true], some name)
        else
          ([.setLogModuleName name, .loadProjCfg false,
            .log (lit "[" ++ name ++ lit "] failed to load configurations"), .exitTask name], none)
  else ([.log (lit "failed to process command line: " ++ argv0)], none)

/-- The second block under `CTF_CLI`. -/
def shutDown (name : Text) : List CtfCall :=
  [.uninitClient, .setRunningFlag name, .waitExitSignal name, .exitTask name]

inductive ExitStatus where
  | success
  | failure
  deriving DecidableEq

/-- A run of `main`: the calls to CTF, what it has written to the standard streams,
the shell if it came to one, and the exit status if it has ended. -/
structure MainRun (σ : Type) where
  calls : List CtfCall := []
  console : List Line := []
  shell : Option (Shell (World σ)) := none
  status : Option ExitStatus := none

/-- What the `catch` clauses of `main` print. -/
def caughtLine (e : Exn) : Text :=
  match e.what with
  | some what => lit "Exception caught in main: " ++ what
  | none => lit "Unknown exception caught in main."

/-- The warning of the environment constructor. -/
def envWarning (value : Option Text) (eqProj : Text) : List Line :=
  if IoParser.envPath value eqProj = none then
    [.err (lit "Warning: no config file could be load, please use command 'load' to read first")]
  else []

section Main

variable (P : Platform σ F) (order : IterationOrder Text) (parse : XmlParse) (fs : FileSystem)
  (value : Option Text) (eqProj : Text) (n : ℕ) (io : σ) (input : Stream' (Option Text))

/-- What `main` does between the two blocks, for at most `n` lines. -/
def mainBody (prompt : Text) : MainRun σ :=
  match IoParser.ofEnv parse fs value eqProj with
  | .error e => { console := [.err (caughtLine e)], status := some .failure }
  | .ok parser =>
      let s := (program P order parser prompt n io input).1
      { console := envWarning value eqProj ++ s.console
        shell := some s
        status := if s.term.running then none else some .success }

/-- `main`, built with CTF or without it. -/
def main (ctf : Option Ctf) (argv0 : Text) : MainRun σ :=
  match ctf with
  | none => mainBody P order parse fs value eqProj n io input termName
  | some c =>
      match startUp c argv0 with
      | (calls, none) => { calls := calls, status := some .failure }
      | (calls, some name) =>
          let r := mainBody P order parse fs value eqProj n io input name
          { r with calls := if r.status = some .success then calls ++ shutDown name else calls }

/-- CTF passes every check, or is not asked. -/
def StartsUp (ctf : Option Ctf) : Prop :=
  ∀ c ∈ ctf, c.commandLine = true ∧ (∃ name, c.moduleName = some name) ∧ c.running = false ∧
    c.projCfg = true ∧ c.ioClient = .ok ()

/-- The environment names no configuration, or one that loads. -/
def Configured : Prop :=
  ∀ path, IoParser.envPath value eqProj = some path →
    ∃ doc, readDocument parse fs path = some doc ∧ Accepted doc

/-- One of the first `n` lines has `exit` for its first word. -/
def Leaves : Prop :=
  ∃ line, some line ∈ input.take n ∧ (words isspace line).head? = some (lit "exit")

end Main

section StartUp

/-- A start-up that fails leaves nothing behind: the client is not open, the
project's configuration is released, and the task ended if its name was known. -/
structure CleanFailure (c : Ctf) (calls : List CtfCall) : Prop where
  client : .initClient true ∉ calls
  projCfg : .loadProjCfg true ∈ calls → .releaseProjCfg ∈ calls
  task : ∀ name, .exitTask name ∈ calls ↔ c.commandLine = true ∧ c.moduleName = some name

/-- What a start-up that passes has called. -/
def startUpCalls (name : Text) : List CtfCall :=
  [.setLogModuleName name, .loadProjCfg true, .initClient true]

theorem startUp_cases (c : Ctf) (argv0 : Text) :
    (¬ StartsUp (some c) ∧ ∃ calls, startUp c argv0 = (calls, none) ∧ CleanFailure c calls) ∨
    (StartsUp (some c) ∧ ∃ name, c.moduleName = some name ∧
      startUp c argv0 = (startUpCalls name, some name)) := by
  obtain ⟨commandLine, moduleName, running, projCfg, ioClient⟩ := c
  cases commandLine with
  | false => exact Or.inl ⟨by simp [StartsUp], _, rfl, by constructor <;> simp⟩
  | true =>
      cases moduleName with
      | none => exact Or.inl ⟨by simp [StartsUp], _, rfl, by constructor <;> simp⟩
      | some name =>
          cases running with
          | true =>
              exact Or.inl ⟨by simp [StartsUp], _, rfl, by constructor <;> simp [eq_comm]⟩
          | false =>
              cases projCfg with
              | false =>
                  exact Or.inl ⟨by simp [StartsUp], _, rfl, by constructor <;> simp [eq_comm]⟩
              | true =>
                  cases ioClient with
                  | error code =>
                      exact Or.inl ⟨by simp [StartsUp], _, rfl, by constructor <;> simp [eq_comm]⟩
                  | ok u => exact Or.inr ⟨by simp [StartsUp], name, rfl, rfl⟩

theorem ofEnv_ok_iff (parse : XmlParse) (fs : FileSystem) (value : Option Text) (eqProj : Text) :
    (∃ parser, IoParser.ofEnv parse fs value eqProj = .ok parser) ↔
      Configured parse fs value eqProj := by
  cases henv : IoParser.envPath value eqProj with
  | none => simp [Configured, henv, IoParser.ofEnv]
  | some path =>
      simp only [Configured, henv, Option.some.injEq, forall_eq']
      rcases IoParser.ofEnv_tables parse fs henv with
        ⟨hdoc, e, he⟩ | ⟨doc, hdoc, hno, e, he⟩ | ⟨doc, p, hdoc, hp, -, ht⟩
      · simp [hdoc, he]
      · rw [exists_tablesOf_iff] at hno
        simp [hdoc, he, hno]
      · simp only [hdoc, hp, Option.some.injEq, exists_eq_left', ← exists_tablesOf_iff]
        exact ⟨fun _ => ⟨_, ht⟩, fun _ => ⟨p, rfl⟩⟩

end StartUp

theorem exit_mem_servedStatements_iff (n : ℕ) (input : Stream' (Option Text)) :
    .exit ∈ servedStatements n input ↔ Leaves n input := by
  simp only [servedStatements, mem_upToFirst_eq, List.mem_map, Statement.ofLine_eq_exit_iff, Leaves]
  constructor
  · rintro ⟨_, hmem, line, rfl, hword⟩
    exact ⟨line, hmem, hword⟩
  · rintro ⟨line, hmem, hword⟩
    exact ⟨_, hmem, line, rfl, hword⟩

section Outcome

variable (P : Platform σ F) (order : IterationOrder Text) (parse : XmlParse) (fs : FileSystem)
  (value : Option Text) (eqProj : Text) (n : ℕ) (io : σ) (input : Stream' (Option Text))

/-- Either the configuration does not load, and no line is read; or the program
runs on a parser that has been constructed. -/
theorem mainBody_cases (prompt : Text) :
    let r := mainBody P order parse fs value eqProj n io input prompt
    (¬ Configured parse fs value eqProj ∧ r.shell = none ∧ r.status = some .failure) ∨
    (Configured parse fs value eqProj ∧ ∃ parser,
      IoParser.ofEnv parse fs value eqProj = .ok parser ∧
      r.shell = some (program P order parser prompt n io input).1 ∧
      ((Leaves n input ∧ r.status = some .success) ∨ (¬ Leaves n input ∧ r.status = none))) := by
  intro r
  have hconf := ofEnv_ok_iff parse fs value eqProj
  simp only [r, mainBody]
  cases henv : IoParser.ofEnv parse fs value eqProj with
  | error e =>
      left
      rw [henv] at hconf
      refine ⟨fun h => ?_, rfl, rfl⟩
      obtain ⟨parser, hp⟩ := hconf.mpr h
      cases hp
  | ok parser =>
      right
      have hrunning := program_running_iff P order parser prompt n io input
      rw [exit_mem_servedStatements_iff] at hrunning
      refine ⟨hconf.mp ⟨parser, henv⟩, parser, rfl, rfl, ?_⟩
      by_cases hleaves : Leaves n input
      · left
        refine ⟨hleaves, if_neg fun hr => hrunning.mp hr hleaves⟩
      · right
        exact ⟨hleaves, if_pos (hrunning.mpr hleaves)⟩

/-- The body of `main`, behind a start-up that passes. -/
theorem main_of_startsUp {ctf : Option Ctf} (h : StartsUp ctf) (argv0 : Text) :
    ∃ prompt, (main P order parse fs value eqProj n io input ctf argv0).shell =
        (mainBody P order parse fs value eqProj n io input prompt).shell ∧
      (main P order parse fs value eqProj n io input ctf argv0).status =
        (mainBody P order parse fs value eqProj n io input prompt).status := by
  cases ctf with
  | none => exact ⟨termName, rfl, rfl⟩
  | some c =>
      rcases startUp_cases c argv0 with ⟨hno, -⟩ | ⟨-, name, -, hstart⟩
      · exact absurd h hno
      · refine ⟨name, ?_, ?_⟩
        · rw [main, hstart]
        · rw [main, hstart]

theorem main_of_not_startsUp {ctf : Option Ctf} (h : ¬ StartsUp ctf) (argv0 : Text) :
    (main P order parse fs value eqProj n io input ctf argv0).shell = none ∧
      (main P order parse fs value eqProj n io input ctf argv0).status = some .failure := by
  cases ctf with
  | none => exact absurd (by simp [StartsUp]) h
  | some c =>
      rcases startUp_cases c argv0 with ⟨-, calls, hstart, -⟩ | ⟨hyes, -⟩
      · rw [main, hstart]
        exact ⟨rfl, rfl⟩
      · exact absurd hyes h

/-- `main` succeeds exactly when start-up passes, the configuration loads and a
line leaves; it fails exactly when one of the first two does not, and then it has
read no line. Otherwise it goes on. -/
theorem main_status (ctf : Option Ctf) (argv0 : Text) :
    let r := main P order parse fs value eqProj n io input ctf argv0
    (r.status = some .success ↔
      (StartsUp ctf ∧ Configured parse fs value eqProj) ∧ Leaves n input) ∧
    (r.status = some .failure ↔ ¬ (StartsUp ctf ∧ Configured parse fs value eqProj)) ∧
    (r.shell = none ↔ ¬ (StartsUp ctf ∧ Configured parse fs value eqProj)) := by
  intro r
  by_cases hup : StartsUp ctf
  · obtain ⟨prompt, hshell, hstatus⟩ :=
      main_of_startsUp P order parse fs value eqProj n io input hup argv0
    simp only [r, hshell, hstatus]
    rcases mainBody_cases P order parse fs value eqProj n io input prompt with
      ⟨hconf, hshell, hstatus⟩ |
      ⟨hconf, parser, -, hshell, ⟨hleaves, hstatus⟩ | ⟨hleaves, hstatus⟩⟩
    · simp [hup, hconf, hshell, hstatus]
    · simp [hup, hconf, hshell, hstatus, hleaves]
    · simp [hup, hconf, hshell, hstatus, hleaves]
  · obtain ⟨hshell, hstatus⟩ :=
      main_of_not_startsUp P order parse fs value eqProj n io input hup argv0
    simp [r, hup, hshell, hstatus]

/-- What a run under CTF leaves behind. The IO client stays open when a start-up
that passed is not followed by success, the project's configuration after every
start-up that passed, and the task is ended except where the client stays open. -/
theorem main_leavesBehind (c : Ctf) (argv0 : Text) :
    let r := main P order parse fs value eqProj n io input (some c) argv0
    ((.initClient true ∈ r.calls ∧ .uninitClient ∉ r.calls) ↔
      StartsUp (some c) ∧ r.status ≠ some .success) ∧
    ((.loadProjCfg true ∈ r.calls ∧ .releaseProjCfg ∉ r.calls) ↔ StartsUp (some c)) ∧
    ∀ name, .exitTask name ∈ r.calls ↔ (c.commandLine = true ∧ c.moduleName = some name) ∧
      ¬ (StartsUp (some c) ∧ r.status ≠ some .success) := by
  intro r
  rcases startUp_cases c argv0 with ⟨hno, calls, hstart, hclean⟩ | ⟨hyes, name, hname, hstart⟩
  · have hcalls : r.calls = calls := by simp only [r, main, hstart]
    refine ⟨?_, ?_, fun name => ?_⟩
    · simp [hcalls, hno, hclean.client]
    · refine iff_of_false (fun h => ?_) hno
      rw [hcalls] at h
      exact h.2 (hclean.projCfg h.1)
    · simp [hcalls, hno, hclean.task]
  · have hcommandLine : c.commandLine = true := (hyes c rfl).1
    have hr : r.calls = if r.status = some .success then startUpCalls name ++ shutDown name
        else startUpCalls name := by simp only [r, main, hstart]
    by_cases hok : r.status = some .success
    · rw [if_pos hok] at hr
      simp [hr, hok, hyes, hname, hcommandLine, startUpCalls, shutDown, eq_comm]
    · rw [if_neg hok] at hr
      simp [hr, hok, hyes, startUpCalls]

end Outcome

end IoEmulator.CtfIo
