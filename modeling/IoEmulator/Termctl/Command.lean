import IoEmulator.Termctl.Completion
import IoEmulator.Foundation.FirstWinsMap

/-!
# Commands and the command map

A command has a name, an optional execution and an optional completion for its
parameter. The map keeps the first command registered under each name.

## Implementation notes

An execution acts on a world outside the terminal, of any type. Besides its new
world it reports what it printed, whether it called `terminal::stop`, and how it
ended. The calls of `exec_` are recorded where they are made.
-/

namespace IoEmulator.Termctl

open Foundation.Enumeration Foundation.FirstWinsMap Foundation.KeySets

variable {W : Type}

/-- What one execution did. -/
structure Called (W : Type) where
  world : W
  printed : List Line := []
  stopped : Bool := false
  outcome : Except Exn Unit := .ok ()

/-- `basic_command::execution`. -/
abbrev Execution (W : Type) := List Text → W → Called W

/-- What `execute` did, with the calls of executions that it made. -/
structure Executed (W : Type) extends Called W where
  calls : List (Execution W × List Text) := []

/-- `basic_command`. An empty `std::function` and a null completion are `none`. -/
structure BasicCommand (W : Type) where
  name : Text
  exec : Option (Execution W)
  paramCompletion : Option Completion

namespace BasicCommand

/-- Both constructors: a completion is made unless the item set is empty. -/
def make (order : IterationOrder Text) (name : Text) (exec : Option (Execution W))
    (items : KeySet Text) : BasicCommand W where
  name := name
  exec := exec
  paramCompletion := if items = ∅ then none else some (Completion.makeUnique order items)

/-- `has_param`: a completion object exists and is not empty. -/
def hasParam (cmd : BasicCommand W) : Bool :=
  match cmd.paramCompletion with
  | none => false
  | some c => !c.items.isEmpty

/-- `param_generator`. -/
def paramGenerator (text : Text) (state : Int) (cmd : BasicCommand W) :
    Option Text × BasicCommand W :=
  if cmd.hasParam then
    match cmd.paramCompletion with
    | none => (none, cmd)
    | some c =>
        let r := c.generator text state
        (r.1, { cmd with paramCompletion := some r.2 })
  else (none, cmd)

/-- `execute`. -/
def execute (args : List Text) (cmd : BasicCommand W) (w : W) : Executed W :=
  match cmd.exec with
  | none => { world := w, outcome := .error (.runtimeError (lit "execution does not exist")) }
  | some exec => { toCalled := exec args w, calls := [(exec, args)] }

/-- The names the parameter completion of a command was built with. -/
def params (cmd : BasicCommand W) : List Text := (cmd.paramCompletion.map Completion.items).getD []

@[simp] theorem mem_params_make (order : IterationOrder Text) (name : Text)
    (exec : Option (Execution W)) (items : KeySet Text) (c : Text) :
    c ∈ (make order name exec items).params ↔ c ∈ items := by
  by_cases hi : items = ∅
  · simp [make, params, hi]
  · simp [make, params, hi]

/-- The names a session for `text` offers. -/
def offers (text : Text) (cmd : BasicCommand W) : List Text :=
  (cmd.paramCompletion.map fun c => c.offers text).getD []

theorem mem_offers (text : Text) (cmd : BasicCommand W) (n : Text) :
    n ∈ cmd.offers text ↔ text ≠ [] ∧ n ∈ cmd.params ∧ text <+: n := by
  unfold offers params
  cases cmd.paramCompletion with
  | none => simp
  | some c => simpa using c.mem_offers text n

theorem nodup_offers (text : Text) (cmd : BasicCommand W) : (cmd.offers text).Nodup := by
  unfold offers
  cases cmd.paramCompletion with
  | none => exact List.nodup_nil
  | some c => exact c.nodup_offers text

/-- `param_generator` changes nothing but the iterator: name, execution and
offers stay. -/
theorem paramGenerator_same (text : Text) (state : Int) (cmd : BasicCommand W) :
    (cmd.paramGenerator text state).2.name = cmd.name ∧
      (cmd.paramGenerator text state).2.exec = cmd.exec ∧
      (cmd.paramGenerator text state).2.params = cmd.params ∧
      ∀ t, (cmd.paramGenerator text state).2.offers t = cmd.offers t := by
  unfold paramGenerator
  split
  · split
    · simp
    · rename_i c hc
      simp [params, offers, hc, Completion.offers]
  · simp

/-- A session for `text` about to make its call number `n` has `r` to deliver. -/
def Awaiting (text : Text) (n : ℕ) (cmd : BasicCommand W) (r : List Text) : Prop :=
  match cmd.paramCompletion with
  | none => r = []
  | some c => c.Awaiting text n r

theorem awaiting_zero (text : Text) (cmd : BasicCommand W) :
    cmd.Awaiting text 0 (cmd.offers text) := by
  unfold Awaiting offers
  cases cmd.paramCompletion with
  | none => rfl
  | some c => exact c.awaiting_zero text

theorem awaiting_nil {text : Text} {n : ℕ} {cmd : BasicCommand W}
    (h : cmd.Awaiting text n []) : (cmd.paramGenerator text n).1 = none := by
  unfold Awaiting at h
  unfold paramGenerator
  split
  · cases hc : cmd.paramCompletion with
    | none => rfl
    | some c => exact Completion.awaiting_nil (by simpa [hc] using h)
  · rfl

theorem awaiting_cons {text : Text} {n : ℕ} {cmd : BasicCommand W} {a : Text} {r : List Text}
    (h : cmd.Awaiting text n (a :: r)) :
    (cmd.paramGenerator text n).1 = some a ∧
      (cmd.paramGenerator text n).2.Awaiting text (n + 1) r := by
  unfold Awaiting at h
  cases hc : cmd.paramCompletion with
  | none => simp [hc] at h
  | some c =>
      simp only [hc] at h
      obtain ⟨hout, hrest⟩ := Completion.awaiting_cons h
      have hp : cmd.hasParam = true := by
        have hmem : a ∈ (c.start n).filter (matchesPrefix text) := by
          unfold Completion.Awaiting at h
          split at h
          · simp at h
          · exact h ▸ List.mem_cons_self
        have : a ∈ c.items := (c.start_suffix n).mem (List.mem_of_mem_filter hmem)
        cases hi : c.items with
        | nil => simp [hi] at this
        | cons b l => simp [hasParam, hc, hi]
      simp only [paramGenerator, hp, hc, if_true]
      exact ⟨hout, hrest⟩

/-- The names `param_generator` enumerates: its answers to the states `0, 1, 2, ...`
up to the first null, for at most `fuel` calls. -/
def enumerate (fuel : ℕ) (text : Text) (cmd : BasicCommand W) :
    Except Unit (List Text × BasicCommand W) :=
  collect () (fun n cmd => .ok (cmd.paramGenerator text n)) fuel 0 cmd

/-- Any sufficient number of calls enumerates `found`. -/
def Enumerates (text : Text) (cmd : BasicCommand W) (found : List Text) : Prop :=
  ∀ fuel, found.length < fuel → ∃ cmd', cmd.enumerate fuel text = .ok (found, cmd')

theorem enumerates_offers (text : Text) (cmd : BasicCommand W) :
    cmd.Enumerates text (cmd.offers text) := by
  have serves : Serves (ε := Unit)
      (fun n (cmd : BasicCommand W) => .ok (cmd.paramGenerator text n))
      (fun n cmd r => cmd.Awaiting text n r) :=
    { stop := fun {n cmd} h => ⟨(cmd.paramGenerator text n).2, by simp [← awaiting_nil h]⟩
      next := fun {n cmd a r} h => ⟨(cmd.paramGenerator text n).2,
        by simp [← (awaiting_cons h).1], (awaiting_cons h).2⟩ }
  exact fun fuel hf => collect_eq () serves (cmd.awaiting_zero text) hf

/-- Exactly the offered names are enumerated. -/
theorem enumerates_iff (text : Text) (cmd : BasicCommand W) (found : List Text) :
    cmd.Enumerates text found ↔ found = cmd.offers text := by
  constructor
  · intro h
    let fuel := found.length + (cmd.offers text).length + 1
    obtain ⟨cmd₁, h₁⟩ := h fuel (by simp only [fuel]; omega)
    obtain ⟨cmd₂, h₂⟩ := cmd.enumerates_offers text fuel (by simp only [fuel]; omega)
    exact (Prod.mk.inj (Except.ok.inj (h₁.symm.trans h₂))).1
  · rintro rfl
    exact cmd.enumerates_offers text

end BasicCommand

/-- `commands::cmds_map_`. -/
abbrev Commands (W : Type) := KeyMap Text (BasicCommand W)

namespace Commands

/-- `register_command`: a name that is taken keeps its command. -/
def registerCommand (cmd : BasicCommand W) (cmds : Commands W) : Commands W :=
  emplace cmd.name cmd cmds

/-- The lookup in `execute_command`, with the error of an unknown name. -/
def findCommand (name : Text) (cmds : Commands W) : Except Exn (BasicCommand W) :=
  match cmds.find name with
  | none => .error (.invalidArgument (lit "invalid command \"" ++ name ++ lit "\""))
  | some cmd => .ok cmd

/-- `execute_command`. -/
def executeCommand (name : Text) (args : List Text) (cmds : Commands W) (w : W) : Executed W :=
  match cmds.findCommand name with
  | .error e => { world := w, outcome := .error e }
  | .ok cmd => cmd.execute args w

/-- The registered names are those `execute_command` does not reject. -/
theorem findCommand_isOk_iff (name : Text) (cmds : Commands W) :
    (cmds.findCommand name).isOk = true ↔ name ∈ keySet cmds := by
  rw [mem_keySet, findCommand]
  cases cmds.find name <;> simp [Except.isOk, Except.toBool]

end Commands

end IoEmulator.Termctl
