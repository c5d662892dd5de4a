import IoEmulator.Termctl.CompletionRequests
import IoEmulator.Termctl.ScriptExecution

/-!
# Completion while the lines of a session are edited

`readline` calls back into the terminal while a line is edited, so requests and
single calls of the generator come between the executions of a session. They
move cursors and the slot, which no execution reads, and executions change
neither the names on offer nor what the slot is bound to.

## Implementation notes

A fault is undefined behaviour, so a session in which one occurs has no state.
Two sessions take the same course when they differ in the cursors only.
-/

namespace IoEmulator.Termctl

open Foundation.Enumeration Foundation.FirstWinsMap Foundation.InterruptibleLoop

variable {W : Type}

/-- What a command is apart from its cursor. -/
def BasicCommand.core (cmd : BasicCommand W) : Text × Option (Execution W) := (cmd.name, cmd.exec)

theorem BasicCommand.execute_congr {cmd cmd' : BasicCommand W} (h : cmd.core = cmd'.core)
    (args : List Text) (w : W) : cmd.execute args w = cmd'.execute args w := by
  have hexec : cmd.exec = cmd'.exec := congrArg Prod.snd h
  rw [BasicCommand.execute, BasicCommand.execute, hexec]

namespace Terminal

/-- `t'` has the prompt, the flag and, but for cursors, the commands of `t`. -/
structure SameCommands (t t' : Terminal W) : Prop where
  prompt : t'.prompt = t.prompt
  running : t'.running = t.running
  cmds : ∀ name,
    (t'.cmds.find name).map BasicCommand.core = (t.cmds.find name).map BasicCommand.core

theorem SameCommands.refl (t : Terminal W) : SameCommands t t := ⟨rfl, rfl, fun _ => rfl⟩

theorem SameCommands.trans {t t' t'' : Terminal W} (h : SameCommands t t')
    (h' : SameCommands t' t'') : SameCommands t t'' where
  prompt := h'.prompt.trans h.prompt
  running := h'.running.trans h.running
  cmds name := (h'.cmds name).trans (h.cmds name)

theorem sameCommands_bind (t : Terminal W) (line : Text) (start : Nat) :
    SameCommands t (t.bindGenerator line start) := by
  unfold bindGenerator
  split
  · exact ⟨rfl, rfl, fun _ => rfl⟩
  · exact ⟨rfl, rfl, fun _ => rfl⟩

theorem sameCommands_call {t t' : Terminal W} {text : Text} {state : Int} {answer : Option Text}
    (h : t.genericGenerator text state = .ok (answer, t')) : SameCommands t t' := by
  unfold genericGenerator at h
  split at h
  · obtain ⟨-, rfl⟩ := Prod.mk.inj (Except.ok.inj h)
    exact SameCommands.refl t
  · cases h
  · split at h
    · cases h
    · split at h
      · obtain ⟨-, rfl⟩ := Prod.mk.inj (Except.ok.inj h)
        exact ⟨rfl, rfl, fun _ => rfl⟩
      · cases h
  · rename_i name hbound
    split at h
    · cases h
    · rename_i cmd hcmd
      obtain ⟨-, rfl⟩ := Prod.mk.inj (Except.ok.inj h)
      obtain ⟨hname, hexec, -⟩ := cmd.paramGenerator_same text state
      refine ⟨rfl, rfl, fun other => ?_⟩
      by_cases hother : other = name
      · subst hother
        simp [hcmd, BasicCommand.core, hname, hexec]
      · rw [find_store_ne _ hother]

/-- A command line is executed alike, whatever the cursors. -/
theorem executeCommand_congr {t t' : Terminal W} (h : SameCommands t t') (name : Text)
    (args : List Text) (w : W) :
    t'.cmds.executeCommand name args w = t.cmds.executeCommand name args w := by
  have hname := h.cmds name
  cases hfind : t.cmds.find name with
  | none =>
      have hfind' : t'.cmds.find name = none := by simpa [hfind] using hname
      simp only [Commands.executeCommand, Commands.findCommand, hfind, hfind']
  | some cmd =>
      obtain ⟨cmd', hfind', hcore⟩ : ∃ cmd', t'.cmds.find name = some cmd' ∧
          cmd'.core = cmd.core := by simpa [hfind] using hname
      simp only [Commands.executeCommand, Commands.findCommand, hfind, hfind',
        BasicCommand.execute_congr hcore args w]

/-- Requests and callback calls never change the commands. -/
theorem sameCommands_runEvents {t t' : Terminal W} {events : List CompletionEvent}
    (h : runEvents events t = .ok t') : SameCommands t t' := by
  induction events generalizing t with
  | nil =>
      obtain rfl := Except.ok.inj h
      exact SameCommands.refl t
  | cons e events ih =>
      rw [runEvents, List.foldlM_cons] at h
      cases e with
      | bind line start => exact (sameCommands_bind t line start).trans (ih h)
      | call text state =>
          cases hcall : t.genericGenerator text state with
          | error fault =>
              rw [completionStep, hcall] at h
              cases h
          | ok r =>
              rw [completionStep, hcall] at h
              exact (sameCommands_call hcall).trans (ih h)

/-- A registration leaves a slot that is bound to nothing settled. -/
theorem settled_self {t : Terminal W} {obj : CompletionObj} (hobj : t.cmdCompletion = some obj)
    (hslot : t.generator = none) : Settled t t where
  completion := ⟨obj, obj, hobj, hobj, rfl, rfl⟩
  offers _ _ := rfl
  boundCmd a ha := by simp [hslot] at ha
  boundParam name hn := by simp [hslot] at hn

theorem settled_registerAll (order : IterationOrder Text) (batch : List (BasicCommand W))
    (batches : List (List (BasicCommand W))) :
    Settled (({} : Terminal W).registerAll order (batch :: batches))
      (({} : Terminal W).registerAll order (batch :: batches)) := by
  have hslot : ∀ (l : List (List (BasicCommand W))) (t : Terminal W), t.generator = none →
      (t.registerAll order l).generator = none := by
    intro l
    induction l with
    | nil => exact fun t ht => ht
    | cons b l ih => exact fun t ht => ih _ ht
  obtain ⟨last, hlast⟩ := Option.isSome_iff_exists.mp
    (List.getLast?_isSome.mpr (List.cons_ne_nil batch batches))
  obtain ⟨address, hobj⟩ := registerAll_cmdCompletion order hlast ({} : Terminal W)
  exact settled_self hobj (hslot _ {} rfl)

end Terminal

/-- A result of `readline`, with what it called before it returned. -/
structure EditedLine where
  events : List Terminal.CompletionEvent
  result : Option Text

namespace Shell

open Terminal

/-- One iteration in which `readline` serves the requests of the user first. -/
def editedIteration (s : Except Fault (Shell W)) (input : EditedLine) : Except Fault (Shell W) :=
  s.bind fun s => (runEvents input.events s.term).map fun t =>
    ({ s with term := t } : Shell W).iteration input.result

def upAndRunning : Except Fault (Shell W) → Bool
  | .ok s => s.term.running
  | .error _ => false

/-- `terminal::run` on edited lines, for at most `fuel` iterations. -/
def editedRun (name : Text) (fuel : ℕ) (s : Shell W) (input : Stream' EditedLine) :
    Except Fault (Shell W) × Stream' EditedLine :=
  if s.term.running then (.ok s.alreadyRunning, input)
  else
    drive upAndRunning editedIteration fuel
      (.ok { s with term := ({ s.term with running := true } : Terminal W).setPrompt name }) input

/-- The two have done the same: they differ in the cursors of their commands
only. -/
structure SameCourse (s s' : Shell W) : Prop where
  term : SameCommands s.term s'.term
  world : s'.world = s.world
  history : s'.history = s.history
  calls : s'.calls = s.calls
  console : s'.console = s.console

/-- The iteration reads the commands up to their cursors. -/
theorem SameCourse.iteration {s s' : Shell W} (h : SameCourse s s') (input : Option Text) :
    SameCourse (s.iteration input) (s'.iteration input) := by
  obtain ⟨⟨hprompt, hrunning, hcmds⟩, hworld, hhist, hcalls, hconsole⟩ := h
  have hreport : ∀ e, SameCourse (s.report e) (s'.report e) := fun e =>
    ⟨⟨hprompt, hrunning, hcmds⟩, hworld, hhist, hcalls, by rw [report, report, hconsole]⟩
  rcases input with _ | _ | ⟨c, line⟩
  case none => exact hreport _
  case some.nil => exact hreport _
  case some.cons =>
      have hexecute : s'.term.cmds.executeCommand (splitLine (c :: line)).1
            (splitLine (c :: line)).2 s'.world =
          s.term.cmds.executeCommand (splitLine (c :: line)).1 (splitLine (c :: line)).2
            s.world := by
        rw [hworld]
        exact executeCommand_congr ⟨hprompt, hrunning, hcmds⟩ _ _ _
      simp only [Shell.iteration, hexecute]
      generalize s.term.cmds.executeCommand (splitLine (c :: line)).1 (splitLine (c :: line)).2
        s.world = r
      cases r.outcome with
      | ok u =>
          exact ⟨⟨hprompt, by rw [hrunning], hcmds⟩, rfl, by rw [hhist], by rw [hcalls],
            by rw [hconsole]⟩
      | error e =>
          simp only [report, hrunning, hhist, hcalls, hconsole]
          exact ⟨⟨hprompt, rfl, hcmds⟩, rfl, rfl, rfl, rfl⟩

/-- Of the terminal an iteration changes nothing but the flag. -/
theorem iteration_term (s : Shell W) (input : Option Text) :
    ∃ up, (s.iteration input).term = { s.term with running := up } := by
  match input with
  | none => exact ⟨_, rfl⟩
  | some [] => exact ⟨_, rfl⟩
  | some (c :: line) =>
      simp only [Shell.iteration]
      cases (s.term.cmds.executeCommand (splitLine (c :: line)).1 (splitLine (c :: line)).2
        s.world).outcome with
      | ok u => exact ⟨_, rfl⟩
      | error e => exact ⟨_, rfl⟩

/-- Executions leave a settled terminal settled. -/
theorem settled_iteration {t₀ : Terminal W} {s : Shell W} (h : Settled t₀ s.term)
    (input : Option Text) : Settled t₀ (s.iteration input).term := by
  obtain ⟨up, hterm⟩ := s.iteration_term input
  rw [hterm]
  exact ⟨h.completion, h.offers, h.boundCmd, h.boundParam⟩

section Course

variable (order : IterationOrder Text) (batch : List (BasicCommand W))
  (batches : List (List (BasicCommand W))) (w : W) (name : Text) (n : ℕ)
  (input : Stream' EditedLine)

/-- An edited session meets no fault, does what the session does in which the
lines are typed without a request, and leaves a settled terminal. -/
theorem editedRun_settled :
    ∃ s, (editedRun name n (start order (batch :: batches) w) input).1 = .ok s ∧
      SameCourse ((start order (batch :: batches) w).run name n
        (input.map EditedLine.result)).1 s ∧
      (editedRun name n (start order (batch :: batches) w) input).2.map EditedLine.result =
        ((start order (batch :: batches) w).run name n (input.map EditedLine.result)).2 ∧
      Settled (start order (batch :: batches) w).term s.term := by
  have hidle := start_idle order (batch :: batches) w
  generalize hs₀ : start order (batch :: batches) w = s₀ at hidle ⊢
  have hsettled : Settled s₀.term s₀.term := by
    rw [← hs₀]
    exact settled_registerAll order batch batches
  let R : Except Fault (Shell W) → Shell W → Prop := fun e plain =>
    ∃ s, e = .ok s ∧ SameCourse plain s ∧ Settled s₀.term s.term
  have hrunning : ∀ e plain, R e plain → upAndRunning e = plain.term.running := by
    rintro e plain ⟨s, rfl, hcourse, -⟩
    exact hcourse.term.running
  have hiter : ∀ e plain (i : EditedLine), R e plain →
      R (editedIteration e i) (plain.iteration i.result) := by
    rintro e plain i ⟨s, rfl, hcourse, hset⟩
    obtain ⟨t, hrun, ht⟩ := hset.run i.events
    have hterm : SameCommands plain.term t := hcourse.term.trans (sameCommands_runEvents hrun)
    refine ⟨({ s with term := t } : Shell W).iteration i.result, ?_, ?_, ?_⟩
    · simp only [editedIteration, Except.bind, hrun]
      rfl
    · have hedited : SameCourse plain { s with term := t } :=
        ⟨hterm, hcourse.world, hcourse.history, hcourse.calls, hcourse.console⟩
      exact hedited.iteration i.result
    · exact settled_iteration (s := { s with term := t }) ht i.result
  let s₁ : Shell W :=
    { s₀ with term := ({ s₀.term with running := true } : Terminal W).setPrompt name }
  have hstart : R (.ok s₁) s₁ := by
    refine ⟨s₁, rfl, ⟨SameCommands.refl _, rfl, rfl, rfl, rfl⟩, ?_⟩
    exact ⟨hsettled.completion, hsettled.offers, hsettled.boundCmd, hsettled.boundParam⟩
  obtain ⟨⟨s, hs, hcourse, hset⟩, hrest⟩ :=
    drive_simulates hrunning hiter n hstart input
  rw [editedRun, hidle, run_eq hidle]
  exact ⟨s, hs, hcourse, hrest, hset⟩

/-- Whatever has been executed and completed before, a request is answered as on
the terminal that has just been registered to. -/
theorem editedRun_answers (events : List CompletionEvent) :
    ∃ s t, (editedRun name n (start order (batch :: batches) w) input).1 = .ok s ∧
      runEvents events s.term = .ok t ∧
      ∀ line text point fuel,
        ((start order (batch :: batches) w).term.answer line text point).length < fuel →
          ∃ t', t.commandCompletion fuel line text point =
            .ok ((start order (batch :: batches) w).term.answer line text point, t') := by
  obtain ⟨s, hs, -, -, hset⟩ := editedRun_settled order batch batches w name n input
  obtain ⟨t, hrun, ht⟩ := hset.run events
  exact ⟨s, t, hs, hrun, fun line text point fuel hfuel =>
    ht.commandCompletion line text point hfuel⟩

end Course

end Shell

end IoEmulator.Termctl
