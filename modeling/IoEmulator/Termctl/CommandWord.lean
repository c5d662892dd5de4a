import IoEmulator.Termctl.CompletionRequests
import IoEmulator.Termctl.CommandLoop

/-!
# Two readings of the command word

Completion cuts the line at its first space character, while execution takes the
first whitespace-free run. The two agree on lines that begin with a word and have
a space behind it, and on hardly any other.
-/

namespace IoEmulator.Termctl

open Foundation.Enumeration Foundation.FirstWinsMap Foundation.Words

variable {W : Type}

namespace Terminal

/-- The terminals a program can meet: registrations, completion events and runs of
the loop in any order. -/
inductive Reached (order : IterationOrder Text) : Terminal W → Prop
  | fresh : Reached order {}
  | register {t} (cmds : List (BasicCommand W)) :
      Reached order t → Reached order (t.registerCommands order cmds)
  | event {t t'} (e : CompletionEvent) :
      Reached order t → completionStep t e = .ok t' → Reached order t'
  | loop {t} (prompt : Text) (running : Bool) :
      Reached order t → Reached order { t with prompt := prompt, running := running }

/-- A call of the callback stores commands under their own names. -/
theorem selfKeyed_completionStep {t t' : Terminal W} (h : SelfKeyed BasicCommand.name t.cmds)
    {e : CompletionEvent} (he : completionStep t e = .ok t') :
    SelfKeyed BasicCommand.name t'.cmds := by
  cases e with
  | bind line start =>
      obtain rfl := Except.ok.inj he
      simpa using h
  | call text state =>
      simp only [completionStep, genericGenerator] at he
      split at he
      · obtain rfl := Except.ok.inj he
        exact h
      · simp [Except.map] at he
      · split at he
        · simp [Except.map] at he
        · split at he
          · obtain rfl := Except.ok.inj he
            exact h
          · simp [Except.map] at he
      · rename_i name hg
        split at he
        · simp [Except.map] at he
        · rename_i cmd hcmd
          obtain rfl := Except.ok.inj he
          intro a c hc
          by_cases ha : a = name
          · subst a
            obtain rfl : (cmd.paramGenerator text state).2 = c := by simpa using hc
            rw [(cmd.paramGenerator_same text state).1]
            exact h name cmd hcmd
          · rw [find_store_ne _ ha] at hc
            exact h a c hc

theorem Reached.selfKeyed {order : IterationOrder Text} {t : Terminal W} (h : Reached order t) :
    SelfKeyed BasicCommand.name t.cmds := by
  induction h with
  | fresh => exact selfKeyed_empty _
  | register cmds _ ih =>
      rw [registerCommands_cmds]
      exact ih.indexBy cmds
  | event e _ he ih => exact selfKeyed_completionStep ih he
  | loop prompt running _ ih => exact ih

/-- The command whose parameters the slot is bound to complete. -/
def paramTarget (t : Terminal W) : Option (BasicCommand W) :=
  match t.generator with
  | some (.paramOf name) => t.cmds.find name
  | _ => none

theorem paramTarget_bindGenerator (t : Terminal W) {line : Text} {start : ℕ} (hs : start ≠ 0) :
    (t.bindGenerator line start).paramTarget = t.cmds.find (completionWord line start) := by
  simp only [bindGenerator, if_neg hs, resetGenerator, assignParamGenerator, paramTarget]
  cases h : t.cmds.find (completionWord line start) with
  | none => rfl
  | some cmd => exact h

/-- A request at `start` reads the same command from the line as `run` would. With
nothing but whitespace in front it is one for command names, as at the start of a
line; otherwise it completes the parameters of the command that the line's first
word names. -/
def ReadsCommand (t : Terminal W) (line : Text) (start : ℕ) : Prop :=
  ((∀ c ∈ line.take start, isspace c = true) →
      t.bindGenerator line start = t.bindGenerator line 0) ∧
    ((∃ c ∈ line.take start, isspace c = false) →
      (t.bindGenerator line start).paramTarget = t.cmds.find (Shell.splitLine line).1)

/-- The line begins with a word that a space character ends. -/
def WordEndsAtSpace (line : Text) : Prop :=
  ∃ w rest, w ≠ [] ∧ (∀ c ∈ w, isspace c = false) ∧ line = w ++ space :: rest

/-- The two scanners cut the same command word from a line exactly when a space
ends its first word. -/
theorem completionWord_eq_iff {line : Text} {start : ℕ} {c : CChar} (hstart : start ≠ 0)
    (hc : (line)[start - 1]? = some c) (hsep : isspace c = true)
    (hword : ∃ d ∈ line.take start, isspace d = false) :
    completionWord line start = (Shell.splitLine line).1 ↔ WordEndsAtSpace line := by
  obtain ⟨n, rfl⟩ := Nat.exists_eq_succ_of_ne_zero hstart
  have htake : line.take (n + 1) = line.take n ++ [c] := by
    rw [List.take_add_one]
    simp only [Nat.succ_eq_add_one, Nat.add_sub_cancel] at hc
    simp [hc]
  have hline : line.take n ++ [c] ++ line.drop (n + 1) = line := by
    rw [← htake, List.take_append_drop]
  have h := cut_eq_head_words_iff isspace (s := space) (l := line.take n)
    (q := line.drop (n + 1)) isspace_space hsep (htake ▸ hword)
  rw [hline, ← htake] at h
  rw [Shell.splitLine_eq]
  exact h

/-- Completion and execution read the same command exactly on lines with a word in
front of the completion point that a space ends, and on lines neither of whose
readings names a command. -/
theorem readsCommand_iff {order : IterationOrder Text} {t : Terminal W} (ht : Reached order t)
    {line : Text} {start : ℕ} {c : CChar} (hstart : start ≠ 0)
    (hc : (line)[start - 1]? = some c) (hsep : isspace c = true) :
    t.ReadsCommand line start ↔ (∃ d ∈ line.take start, isspace d = false) ∧
      (WordEndsAtSpace line ∨ t.cmds.find (completionWord line start) = none ∧
        t.cmds.find (Shell.splitLine line).1 = none) := by
  by_cases hword : ∃ d ∈ line.take start, isspace d = false
  · have hblank : ¬ ∀ c ∈ line.take start, isspace c = true := by simpa using hword
    have hreads : t.ReadsCommand line start ↔
        t.cmds.find (completionWord line start) = t.cmds.find (Shell.splitLine line).1 := by
      rw [ReadsCommand, paramTarget_bindGenerator t hstart]
      exact ⟨fun h => h.2 hword, fun h => ⟨fun hall => absurd hall hblank, fun _ => h⟩⟩
    rw [hreads, ← completionWord_eq_iff hstart hc hsep hword]
    constructor
    · intro hfind
      refine ⟨hword, ?_⟩
      cases hcmd : t.cmds.find (completionWord line start) with
      | none => exact Or.inr ⟨rfl, hfind.symm.trans hcmd⟩
      | some cmd =>
          left
          have hname := ht.selfKeyed _ _ hcmd
          have hname' := ht.selfKeyed _ _ (hfind.symm.trans hcmd)
          exact hname.symm.trans hname'
    · rintro ⟨-, heq | ⟨hnone, hnone'⟩⟩
      · rw [heq]
      · rw [hnone, hnone']
  · have hblank : ∀ c ∈ line.take start, isspace c = true := by simpa using hword
    refine iff_of_false ?_ fun h => hword h.1
    intro h
    have hslot := congrArg Terminal.generator (h.1 hblank)
    simp only [bindGenerator, if_neg hstart, if_pos, assignParamGenerator, assignCmdGenerator,
      Option.map_eq_some_iff, reduceCtorEq, and_false, exists_false] at hslot

/-- Where the command is read alike, the request answers with the parameters of
the command that `run` would execute, or with nothing when there is none. -/
theorem ReadsCommand.answers {t : Terminal W} {line : Text} {start : ℕ}
    (h : t.ReadsCommand line start) (hstart : start ≠ 0)
    (hword : ∃ d ∈ line.take start, isspace d = false) (text : Text) {fuel : ℕ}
    (hf : (((t.cmds.find (Shell.splitLine line).1).map (BasicCommand.offers text)).getD []).length <
      fuel) : ∃ t', t.commandCompletion fuel line text start =
        .ok (((t.cmds.find (Shell.splitLine line).1).map (BasicCommand.offers text)).getD [],
          t') := by
  have hfind := h.2 hword
  rw [paramTarget_bindGenerator t hstart] at hfind
  rw [← hfind] at hf ⊢
  cases hcmd : t.cmds.find (completionWord line start) with
  | none => exact commandCompletion_unknown hstart hcmd text fuel
  | some cmd => exact commandCompletion_params hstart hcmd text (by simpa [hcmd] using hf)

section Sample

/-- A terminal on which `get` is registered. -/
def getTerminal : Terminal Unit :=
  ({} : Terminal Unit).registerCommands (.latestFirst Text) [⟨lit "get", none, none⟩]

theorem getTerminal_find (name : Text) : getTerminal.cmds.find name =
    [(⟨lit "get", none, none⟩ : BasicCommand Unit)].find? fun cmd => cmd.name = name := by
  rw [getTerminal, registerCommands_cmds]
  exact find_indexBy_empty _ _ _

/-- Behind `get` and one space both read `get`. -/
theorem getTerminal_readsCommand : getTerminal.ReadsCommand (lit "get a") 4 := by
  apply (readsCommand_iff (Reached.register _ Reached.fresh) (by decide) rfl isspace_space).mpr
  refine ⟨⟨_, List.mem_cons_self, rfl⟩, Or.inl ⟨lit "get", lit "a", by decide, ?_, rfl⟩⟩
  exact isspace_eq_false_of_all rfl

/-- With a blank in front of `get`, completion reads an empty command word. -/
theorem getTerminal_not_readsCommand : ¬ getTerminal.ReadsCommand (lit " get ") 5 := by
  intro h
  have hword : completionWord (lit " get ") 5 = [] := rfl
  have hsplit : (Shell.splitLine (lit " get ")).1 = lit "get" := rfl
  have hfind := h.2 ⟨⟨103, by decide⟩, List.mem_cons_of_mem _ List.mem_cons_self, rfl⟩
  rw [paramTarget_bindGenerator _ (by decide), hword, hsplit, getTerminal_find,
    getTerminal_find] at hfind
  exact absurd (congrArg Option.isSome hfind) (by decide)

end Sample

end Terminal

end IoEmulator.Termctl
