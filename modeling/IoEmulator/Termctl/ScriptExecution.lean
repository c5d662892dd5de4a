import IoEmulator.Termctl.CommandLoop

/-!
# What the loop does with a whole script

The loop serves the inputs up to and including the first one that executes the
exit command, and nothing behind it. It returns exactly on scripts that call
`stop`; the end of the input alone does not end it.
-/

namespace IoEmulator.Termctl

open Foundation.Enumeration Foundation.FirstWinsMap Foundation.Words Foundation.InterruptibleLoop

variable {W : Type}

/-- The function of the command, if it has one, returns or throws in every world,
but never calls `stop`. -/
def BasicCommand.NeverStops (cmd : BasicCommand W) : Prop :=
  ∀ exec, cmd.exec = some exec → ∀ args w, (exec args w).stopped = false

namespace Shell

open Classical in
/-- The input names the exit command. -/
noncomputable def exitLine (registered : List (BasicCommand W)) (input : Option Text) : Bool :=
  decide (∃ args, invocation registered input = some (makeExitCommand, args))

theorem exitLine_iff (registered : List (BasicCommand W)) (input : Option Text) :
    exitLine registered input = true ↔
      ∃ args, invocation registered input = some (makeExitCommand, args) := by
  simp [exitLine]

theorem exitLine_of_none {registered : List (BasicCommand W)} {input : Option Text}
    (h : invocation registered input = none) : exitLine registered input = false := by
  rw [Bool.eq_false_iff, ne_eq, exitLine_iff, h]
  simp

theorem mem_of_invocation {registered : List (BasicCommand W)} {input : Option Text}
    {cmd : BasicCommand W} {args : List Text}
    (h : invocation registered input = some (cmd, args)) : cmd ∈ registered := by
  match input with
  | none => simp [invocation] at h
  | some [] => simp [invocation] at h
  | some (c :: line) =>
      simp only [invocation, Option.map_eq_some_iff] at h
      obtain ⟨cmd', hfind, heq⟩ := h
      obtain ⟨rfl, -⟩ := Prod.mk.inj heq
      exact List.mem_of_find?_eq_some hfind

/-- When no other command calls `stop`, exactly the exit lines do. -/
theorem stopsOn_eq_exitLine {registered : List (BasicCommand W)}
    (hothers : ∀ cmd ∈ registered, cmd ≠ makeExitCommand → cmd.NeverStops) (w : W)
    (input : Option Text) : stopsOn registered w input = exitLine registered input := by
  rw [Bool.eq_iff_iff, exitLine_iff, stopsOn]
  cases h : invocation registered input with
  | none => simp [execution, h]
  | some p =>
      obtain ⟨cmd, args⟩ := p
      by_cases hc : cmd = makeExitCommand
      · subst hc
        simp [execution, h, makeExitCommand]
      · cases hexec : cmd.exec with
        | none => simp [execution, h, hexec, hc]
        | some exec =>
            have hnever := hothers cmd (mem_of_invocation h) hc exec hexec args w
            simp [execution, h, hexec, hc, hnever]

theorem stopsScript_eq_any {registered : List (BasicCommand W)}
    (hothers : ∀ cmd ∈ registered, cmd ≠ makeExitCommand → cmd.NeverStops) (w : W)
    (inputs : List (Option Text)) :
    stopsScript registered w inputs = inputs.any (exitLine registered) := by
  induction inputs generalizing w with
  | nil => rfl
  | cons input rest ih =>
      rw [stopsScript, stopsOn_eq_exitLine hothers, ih, List.any_cons]

theorem resolves_of_registerAll {order : IterationOrder Text}
    {batches : List (List (BasicCommand W))} {s : Shell W}
    (h : s.term.cmds = (({} : Terminal W).registerAll order batches).cmds) :
    Resolves batches.flatten s := by
  intro name
  rw [h]
  exact Terminal.find_registerAll order batches name

/-- The loop is down after `n` iterations exactly when one of the first `n`
inputs calls `stop` in the world it is executed in. -/
theorem run_running_eq {registered : List (BasicCommand W)} {s : Shell W}
    (h : Resolves registered s) (hidle : s.term.running = false) (name : Text) (n : ℕ)
    (input : Stream' (Option Text)) :
    (s.run name n input).1.term.running = !stopsScript registered s.world (input.take n) := by
  let s₀ : Shell W :=
    { s with term := ({ s.term with running := true } : Terminal W).setPrompt name }
  have h₀ : Resolves registered s₀ := h
  rw [run_eq hidle, drive_running (fun s : Shell W => s.term.running) iteration n rfl,
    stopsWithin_eq (s := s₀) h₀ rfl]

/-- The loop executes the script it is given: it serves the inputs up to and
including the first exit line, stores every nonempty line once, calls the function
of the command of every resolvable line once, in order and whatever the earlier
calls threw, so that the world is what these calls alone make of it, leaves the
rest of the input unread, and is down exactly when an exit line was served. -/
theorem run_executes_script (order : IterationOrder Text)
    (batches : List (List (BasicCommand W))) (s : Shell W)
    (hcmds : s.term.cmds = (({} : Terminal W).registerAll order batches).cmds)
    (hidle : s.term.running = false)
    (hothers : ∀ cmd ∈ batches.flatten, cmd ≠ makeExitCommand → cmd.NeverStops)
    (name : Text) (n : ℕ) (input : Stream' (Option Text)) :
    let registered := batches.flatten
    let served := upToFirst (exitLine registered) (input.take n)
    let r := s.run name n input
    r.1.history = s.history ++ served.filterMap entry ∧
      r.1.calls = s.calls ++ served.filterMap (execution registered) ∧
      r.1.world = served.foldl (worldAfter registered) s.world ∧
      r.2 = input.drop served.length ∧
      (r.1.term.running = false ↔ ∃ line ∈ input.take n, exitLine registered line = true) := by
  intro registered served r
  let s₀ : Shell W :=
    { s with term := ({ s.term with running := true } : Terminal W).setPrompt name }
  have h : Resolves registered s := resolves_of_registerAll hcmds
  have h₀ : Resolves registered s₀ := h
  have hstep : ∀ (s : Shell W) (i : Option Text), Resolves registered s →
      s.term.running = true → Resolves registered (s.iteration i) ∧
        (s.iteration i).term.running = !exitLine registered i := by
    intro s i h hs
    refine ⟨h.iteration i, ?_⟩
    rw [(iteration_spec h i).2.1, hs, stopsOn_eq_exitLine hothers, Bool.true_and]
  have hr : r = (served.foldl iteration s₀, input.drop served.length) := by
    simp only [r, run_eq hidle]
    exact drive_eq_foldl (fun s : Shell W => s.term.running) iteration hstep n h₀ rfl input
  have hrun : r.1.term.running = !(input.take n).any (exitLine registered) := by
    rw [run_running_eq h hidle, stopsScript_eq_any hothers]
  obtain ⟨hworld, hhist, hcalls⟩ := foldl_iteration h₀ served
  refine ⟨?_, ?_, ?_, ?_, ?_⟩
  · rw [hr]
    exact hhist
  · rw [hr]
    exact hcalls
  · rw [hr]
    exact hworld
  · rw [hr]
  · simp [hrun]

/-- A shell whose terminal has been registered to from its fresh state. -/
def start (order : IterationOrder Text) (batches : List (List (BasicCommand W))) (w : W) :
    Shell W where
  term := ({} : Terminal W).registerAll order batches
  world := w

theorem start_resolves (order : IterationOrder Text) (batches : List (List (BasicCommand W)))
    (w : W) : Resolves batches.flatten (start order batches w) :=
  resolves_of_registerAll (s := start order batches w) rfl

theorem start_idle (order : IterationOrder Text) (batches : List (List (BasicCommand W)))
    (w : W) : (start order batches w).term.running = false :=
  Terminal.registerAll_running order batches {}

section Sample

/-- A command that counts its arguments. -/
def countCommand : BasicCommand ℕ where
  name := lit "count"
  exec := some fun args n => { world := n + args.length }
  paramCompletion := none

/-- A command that doubles the count and throws. -/
def failCommand : BasicCommand ℕ where
  name := lit "fail"
  exec := some fun _ n => { world := 2 * n, outcome := .error (.runtimeError (lit "failed")) }
  paramCompletion := none

def sampleCommands : List (BasicCommand ℕ) := [countCommand, failCommand, makeExitCommand]

theorem exitLine_of_name {registered : List (BasicCommand W)} {input : Option Text}
    (cmd : BasicCommand W) {args : List Text} (h : invocation registered input = some (cmd, args))
    (hname : cmd.name ≠ lit "exit") : exitLine registered input = false := by
  rw [Bool.eq_false_iff, ne_eq, exitLine_iff, h]
  rintro ⟨args', heq⟩
  obtain ⟨rfl, -⟩ := Prod.mk.inj (Option.some.inj heq)
  exact hname rfl

/-- A null, a blank line, a command that runs, one that throws, an unknown one and
an exit line with a line behind it. -/
def sampleScript : List (Option Text) := [none, some (lit " "), some (lit "count a b"),
  some (lit "fail"), some (lit "other"), some (lit " exit now"), some (lit "count c")]

theorem sampleScript_served :
    upToFirst (exitLine sampleCommands) sampleScript = sampleScript.take 6 := by
  have hnull : exitLine sampleCommands none = false := exitLine_of_none rfl
  have hblank : exitLine sampleCommands (some (lit " ")) = false := exitLine_of_none rfl
  have hcount : exitLine sampleCommands (some (lit "count a b")) = false :=
    exitLine_of_name countCommand rfl (by decide)
  have hfail : exitLine sampleCommands (some (lit "fail")) = false :=
    exitLine_of_name failCommand rfl (by decide)
  have hother : exitLine sampleCommands (some (lit "other")) = false := exitLine_of_none rfl
  have hexit : exitLine sampleCommands (some (lit " exit now")) = true :=
    (exitLine_iff _ _).mpr ⟨[lit "now"], rfl⟩
  simp only [sampleScript, upToFirst, hnull, hblank, hcount, hfail, hother, hexit, if_true]
  rfl

/-- The thrown exception neither ends the loop nor keeps the next line from being
served, and the line behind the exit is not. -/
theorem run_executes_script_sample :
    let r := (start (IterationOrder.latestFirst Text) [sampleCommands] 0).run (lit "iotest") 7
      (sampleScript ++ₛ Stream'.const none)
    r.1.history = [lit " ", lit "count a b", lit "fail", lit "other", lit " exit now"] ∧
      r.1.calls.map Prod.snd = [[lit "a", lit "b"], [], [lit "now"]] ∧ r.1.world = 4 ∧
      r.1.term.running = false := by
  intro r
  have hothers : ∀ cmd ∈ [sampleCommands].flatten, cmd ≠ makeExitCommand → cmd.NeverStops := by
    intro cmd hcmd hne exec hexec
    simp only [sampleCommands, List.flatten_cons, List.flatten_nil, List.append_nil,
      List.mem_cons, List.not_mem_nil, or_false] at hcmd
    rcases hcmd with rfl | rfl | rfl
    · obtain rfl := Option.some.inj hexec
      exact fun _ _ => rfl
    · obtain rfl := Option.some.inj hexec
      exact fun _ _ => rfl
    · exact absurd rfl hne
  obtain ⟨hhist, hcalls, hworld, -, hrun⟩ := run_executes_script (IterationOrder.latestFirst Text)
    [sampleCommands] (start (IterationOrder.latestFirst Text) [sampleCommands] 0) rfl
    (start_idle _ _ _) hothers (lit "iotest") 7 (sampleScript ++ₛ Stream'.const none)
  have hserved : upToFirst (exitLine [sampleCommands].flatten)
      ((sampleScript ++ₛ Stream'.const none).take 7) = sampleScript.take 6 := sampleScript_served
  rw [hserved] at hhist hcalls hworld
  refine ⟨hhist, ?_, hworld, hrun.mpr ⟨some (lit " exit now"), ?_, ?_⟩⟩
  · rw [hcalls]
    rfl
  · change _ ∈ sampleScript
    simp [sampleScript]
  · exact (exitLine_iff _ _).mpr ⟨[lit "now"], rfl⟩

end Sample

section EndOfInput

/-- Null results call nothing, so they never stop the loop. -/
theorem stopsScript_nulls (registered : List (BasicCommand W)) (w : W) (k : ℕ) :
    stopsScript registered w (List.replicate k none) = false := by
  induction k with
  | zero => rfl
  | succ k ih =>
      simpa [List.replicate_succ, stopsScript, stopsOn, worldAfter, execution, invocation] using ih

theorem stopsScript_append (registered : List (BasicCommand W)) (w : W)
    (l₁ l₂ : List (Option Text)) :
    stopsScript registered w (l₁ ++ l₂) =
      (stopsScript registered w l₁ ||
        stopsScript registered (l₁.foldl (worldAfter registered) w) l₂) := by
  induction l₁ generalizing w with
  | nil => simp [stopsScript]
  | cons input rest ih => simp [stopsScript, ih, Bool.or_assoc]

/-- A script stops when some line of it calls `stop` in the world that the lines
before it have left. -/
theorem stopsScript_iff (registered : List (BasicCommand W)) (w : W)
    (lines : List (Option Text)) :
    stopsScript registered w lines = true ↔
      ∃ before line after, lines = before ++ line :: after ∧
        stopsOn registered (before.foldl (worldAfter registered) w) line = true := by
  constructor
  · intro h
    induction lines generalizing w with
    | nil => simp [stopsScript] at h
    | cons line rest ih =>
        rw [stopsScript, Bool.or_eq_true] at h
        rcases h with h | h
        · exact ⟨[], line, rest, rfl, h⟩
        · obtain ⟨before, line', after, hrest, h'⟩ := ih _ h
          exact ⟨line :: before, line', after, by rw [hrest]; rfl, h'⟩
  · rintro ⟨before, line, after, rfl, h⟩
    rw [stopsScript_append, stopsScript, h]
    simp

theorem take_nulls (k : ℕ) :
    (Stream'.const (none : Option Text)).take k = List.replicate k none := by
  induction k with
  | zero => rfl
  | succ k ih => rw [Stream'.take_succ, Stream'.tail_const, ih]; rfl

theorem take_append_nulls (lines : List (Option Text)) (n : ℕ) :
    (lines ++ₛ Stream'.const none).take n =
      lines.take n ++ List.replicate (n - lines.length) none := by
  rcases Nat.le_total n lines.length with h | h
  · rw [Stream'.take_append_of_le_length _ _ _ h, Nat.sub_eq_zero_of_le h]
    simp
  · obtain ⟨k, hk⟩ := Nat.exists_eq_add_of_le h
    rw [hk, ← Stream'.append_take, take_nulls, List.take_of_length_le (Nat.le_add_right _ _),
      Nat.add_sub_cancel_left]

/-- The end of the input adds no stopping line. -/
theorem stopsScript_endOfInput (registered : List (BasicCommand W)) (w : W)
    (lines : List (Option Text)) :
    (∃ n, stopsScript registered w ((lines ++ₛ Stream'.const none).take n) = true) ↔
      stopsScript registered w lines = true := by
  simp only [take_append_nulls, stopsScript_append, stopsScript_nulls, Bool.or_false]
  constructor
  · rintro ⟨n, hn⟩
    rw [← List.take_append_drop n lines, stopsScript_append, hn, Bool.true_or]
  · intro h
    exact ⟨lines.length, by rwa [List.take_length]⟩

/-- `run` returns on this input, which ends in null results forever. -/
def ReturnsOn (order : IterationOrder Text) (batches : List (List (BasicCommand W))) (w : W)
    (name : Text) (lines : List (Option Text)) : Prop :=
  ∃ n, ((start order batches w).run name n (lines ++ₛ Stream'.const none)).1.term.running = false

theorem returnsOn_iff_stopsScript (order : IterationOrder Text)
    (batches : List (List (BasicCommand W))) (w : W) (name : Text)
    (lines : List (Option Text)) :
    ReturnsOn order batches w name lines ↔ stopsScript batches.flatten w lines = true := by
  rw [← stopsScript_endOfInput, ReturnsOn]
  refine exists_congr fun n => ?_
  rw [run_running_eq (start_resolves order batches w) (start_idle order batches w)]
  simp [start]

/-- On an input that ends, the loop returns exactly when one of the lines, in
the world the lines before it have left, runs a command that calls `stop`. -/
theorem run_returns_iff (order : IterationOrder Text) (batches : List (List (BasicCommand W)))
    (w : W) (name : Text) (lines : List (Option Text)) :
    ReturnsOn order batches w name lines ↔
      ∃ before line after, lines = before ++ line :: after ∧
        stopsOn batches.flatten (before.foldl (worldAfter batches.flatten) w) line = true := by
  rw [returnsOn_iff_stopsScript, stopsScript_iff]

/-- A script of one unknown command followed by the end of the input is served
forever, although the exit command is registered. -/
theorem run_spins_at_eof :
    ¬ ReturnsOn (IterationOrder.latestFirst Text) [[(makeExitCommand : BasicCommand Unit)]] ()
      (lit "iotest") [some (lit "help")] := by
  rw [returnsOn_iff_stopsScript]
  decide

end EndOfInput

end Shell

end IoEmulator.Termctl
