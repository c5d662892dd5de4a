import IoEmulator.Termctl.Command

/-!
# The terminal: registration and completion

The terminal owns the command map, the completion over command names and the
generator slot that `readline` calls back into.

## Implementation notes

The slot is a `std::function` bound to a raw pointer. It is represented by what
it points to: the name completion alive when it was bound, or a command of the
map. Name completions carry an address, so that a slot bound to no completion or
to a destroyed one is visible; calling through it is a fault, not an answer.
-/

namespace IoEmulator.Termctl

open Foundation.Enumeration Foundation.FirstWinsMap Foundation.KeySets

variable {W : Type}

/-- Undefined behaviour reached through the slot, or a session cut by fuel. -/
inductive Fault where
  | nullCompletion
  | destroyedCompletion
  | destroyedCommand
  | outOfFuel
  deriving DecidableEq

/-- The target a `generator_func` is bound to. -/
inductive Bound where
  | cmdCompletion (address : Option Nat)
  | paramOf (name : Text)
  deriving DecidableEq

/-- A completion object on the heap. -/
structure CompletionObj where
  address : Nat
  completion : Completion

/-- The members of `terminal`, with the number of completions allocated so far. -/
structure Terminal (W : Type) where
  prompt : Text := []
  cmds : Commands W := ∅
  cmdCompletion : Option CompletionObj := none
  generator : Option Bound := none
  running : Bool := false
  allocations : Nat := 0

namespace Terminal

/-- `set_prompt`. -/
def setPrompt (name : Text) (t : Terminal W) : Terminal W := { t with prompt := name ++ lit "> " }

/-- `register_commands`: collect the names of the batch, register its commands,
and replace the name completion by one over the names of the batch. -/
def registerCommands (order : IterationOrder Text) (cmds : List (BasicCommand W))
    (t : Terminal W) : Terminal W :=
  let r := cmds.foldl
    (fun (names, map) cmd => (insert cmd.name names, Commands.registerCommand cmd map))
    ((∅ : KeySet Text), t.cmds)
  { t with
    cmds := r.2
    cmdCompletion := some ⟨t.allocations, Completion.makeUnique order r.1⟩
    allocations := t.allocations + 1 }

/-- `reset_generator`. -/
def resetGenerator (t : Terminal W) : Terminal W := { t with generator := none }

/-- `assign_cmd_generator`: bind to whatever the completion pointer holds. -/
def assignCmdGenerator (t : Terminal W) : Terminal W :=
  { t with generator := some (.cmdCompletion (t.cmdCompletion.map CompletionObj.address)) }

/-- `assign_param_generator`, through `commands::find_param_generator`: an
unknown name leaves the slot empty. -/
def assignParamGenerator (name : Text) (t : Terminal W) : Terminal W :=
  { t with generator := (t.cmds.find name).map fun _ => .paramOf name }

/-- `generic_generator`, the callback given to `readline`. -/
def genericGenerator (text : Text) (state : Int) (t : Terminal W) :
    Except Fault (Option Text × Terminal W) :=
  match t.generator with
  | none => .ok (none, t)
  | some (.cmdCompletion none) => .error .nullCompletion
  | some (.cmdCompletion (some address)) =>
      match t.cmdCompletion with
      | none => .error .destroyedCompletion
      | some obj =>
          if obj.address = address then
            let r := obj.completion.generator text state
            .ok (r.1, { t with cmdCompletion := some { obj with completion := r.2 } })
          else .error .destroyedCompletion
  | some (.paramOf name) =>
      match t.cmds.find name with
      | none => .error .destroyedCommand
      | some cmd =>
          let r := cmd.paramGenerator text state
          .ok (r.1, { t with cmds := t.cmds.store name r.2 })

/-- The command word of the text before the completion point: the part before
its first space character. -/
def completionWord (line : Text) (start : Nat) : Text :=
  (line.take start).takeWhile fun c => c ≠ space

/-- The part of `command_completion` before the session: reset the slot and bind
it anew. -/
def bindGenerator (line : Text) (start : Nat) (t : Terminal W) : Terminal W :=
  if start = 0 then t.resetGenerator.assignCmdGenerator
  else t.resetGenerator.assignParamGenerator (completionWord line start)

@[simp] theorem bindGenerator_cmds (line : Text) (start : Nat) (t : Terminal W) :
    (t.bindGenerator line start).cmds = t.cmds := by
  unfold bindGenerator
  split <;> rfl

@[simp] theorem bindGenerator_cmdCompletion (line : Text) (start : Nat) (t : Terminal W) :
    (t.bindGenerator line start).cmdCompletion = t.cmdCompletion := by
  unfold bindGenerator
  split <;> rfl

/-- `command_completion`, with `rl_completion_matches` as the calls of the
callback with states `0, 1, 2, ...` up to the first null. -/
def commandCompletion (fuel : Nat) (line text : Text) (start : Nat) (t : Terminal W) :
    Except Fault (List Text × Terminal W) :=
  let t := t.bindGenerator line start
  if t.generator.isSome then
    collect .outOfFuel (fun n t => t.genericGenerator text n) fuel 0 t
  else .ok ([], t)

section Registration

variable (order : IterationOrder Text)

@[simp] theorem registerCommands_cmds (cmds : List (BasicCommand W)) (t : Terminal W) :
    (t.registerCommands order cmds).cmds = indexBy BasicCommand.name cmds t.cmds := by
  simp [registerCommands, Commands.registerCommand, foldl_keys_emplace]

@[simp] theorem registerCommands_cmdCompletion (cmds : List (BasicCommand W)) (t : Terminal W) :
    (t.registerCommands order cmds).cmdCompletion =
      some ⟨t.allocations,
        Completion.makeUnique order (KeySet.insertAll (cmds.map BasicCommand.name) ∅)⟩ := by
  simp [registerCommands, Commands.registerCommand, foldl_keys_emplace]

/-- The terminal after a sequence of registrations. -/
def registerAll (batches : List (List (BasicCommand W))) (t : Terminal W) : Terminal W :=
  batches.foldl (fun t cmds => t.registerCommands order cmds) t

@[simp] theorem registerAll_running (batches : List (List (BasicCommand W))) (t : Terminal W) :
    (t.registerAll order batches).running = t.running := by
  induction batches generalizing t with
  | nil => rfl
  | cons b batches ih => exact ih _

/-- The map accumulates every batch, in order. -/
theorem registerAll_cmds (batches : List (List (BasicCommand W))) (t : Terminal W) :
    (t.registerAll order batches).cmds = indexBy BasicCommand.name batches.flatten t.cmds := by
  induction batches generalizing t with
  | nil => rfl
  | cons b batches ih =>
      rw [List.flatten_cons, indexBy_append, ← registerCommands_cmds order b t]
      exact ih _

/-- From the fresh terminal, a name resolves to the first command registered
under it. -/
theorem find_registerAll (batches : List (List (BasicCommand W))) (name : Text) :
    ((({} : Terminal W).registerAll order batches).cmds).find name =
      batches.flatten.find? fun cmd => cmd.name = name := by
  rw [registerAll_cmds, find_indexBy_empty]

end Registration

end Terminal

end IoEmulator.Termctl
