import IoEmulator.Termctl.Terminal

/-!
# What a completion request answers

A request resets the generator slot, binds it anew and then runs one session of
the callback. Its answer is therefore a function of the registered commands and
of the request alone, whatever earlier requests left behind, and the names it
offers at the start of a line are those of the last registered batch.
-/

namespace IoEmulator.Termctl

open Foundation.Enumeration Foundation.FirstWinsMap Foundation.KeySets

variable {W : Type}

namespace Terminal

section Session

/-- The slot is bound to a live object that still has `r` to deliver to a
session for `text` about to make its call number `n`. -/
def Awaiting (text : Text) (n : ℕ) (t : Terminal W) (r : List Text) : Prop :=
  match t.generator with
  | some (.cmdCompletion (some address)) =>
      ∃ obj, t.cmdCompletion = some obj ∧ obj.address = address ∧ obj.completion.Awaiting text n r
  | some (.paramOf name) => ∃ cmd, t.cmds.find name = some cmd ∧ cmd.Awaiting text n r
  | _ => False

/-- The callback serves exactly what the bound object has to deliver. -/
theorem genericGenerator_serves (text : Text) :
    Serves (fun n (t : Terminal W) => t.genericGenerator text n)
      (fun n t r => t.Awaiting text n r) where
  stop := by
    intro n t h
    unfold Awaiting at h
    split at h
    · rename_i address hg
      obtain ⟨obj, hobj, haddr, h⟩ := h
      exact ⟨_, by simp [genericGenerator, hg, hobj, haddr, Completion.awaiting_nil h]; rfl⟩
    · rename_i name hg
      obtain ⟨cmd, hcmd, h⟩ := h
      exact ⟨_, by simp [genericGenerator, hg, hcmd, BasicCommand.awaiting_nil h]; rfl⟩
    · exact h.elim
  next := by
    intro n t a r h
    unfold Awaiting at h
    split at h
    · rename_i address hg
      obtain ⟨obj, hobj, haddr, h⟩ := h
      obtain ⟨hout, hrest⟩ := Completion.awaiting_cons h
      refine ⟨_, by simp [genericGenerator, hg, hobj, haddr, hout]; rfl, ?_⟩
      simpa [Awaiting, hg, haddr] using hrest
    · rename_i name hg
      obtain ⟨cmd, hcmd, h⟩ := h
      obtain ⟨hout, hrest⟩ := BasicCommand.awaiting_cons h
      refine ⟨_, by simp [genericGenerator, hg, hcmd, hout]; rfl, ?_⟩
      simpa [Awaiting, hg] using hrest
    · exact h.elim

/-- At the start of a line the answer is what the name completion offers. -/
theorem commandCompletion_names {t : Terminal W} {obj : CompletionObj}
    (hobj : t.cmdCompletion = some obj) (line text : Text) {fuel : ℕ}
    (hf : (obj.completion.offers text).length < fuel) :
    ∃ t', t.commandCompletion fuel line text 0 = .ok (obj.completion.offers text, t') := by
  have h : (t.bindGenerator line 0).Awaiting text 0 (obj.completion.offers text) := by
    simpa [bindGenerator, resetGenerator, assignCmdGenerator, Awaiting, hobj] using
      obj.completion.awaiting_zero text
  have hg : (t.bindGenerator line 0).generator.isSome = true := rfl
  obtain ⟨t', ht'⟩ := collect_eq .outOfFuel (genericGenerator_serves text) h hf
  exact ⟨t', by rw [commandCompletion, if_pos hg, ht']⟩

/-- Behind the command word the answer is what the named command offers. -/
theorem commandCompletion_params {t : Terminal W} {line : Text} {start : Nat}
    {cmd : BasicCommand W} (hs : start ≠ 0)
    (hcmd : t.cmds.find (completionWord line start) = some cmd) (text : Text) {fuel : ℕ}
    (hf : (cmd.offers text).length < fuel) :
    ∃ t', t.commandCompletion fuel line text start = .ok (cmd.offers text, t') := by
  have h : (t.bindGenerator line start).Awaiting text 0 (cmd.offers text) := by
    simpa [bindGenerator, resetGenerator, assignParamGenerator, Awaiting, hs, hcmd] using
      cmd.awaiting_zero text
  have hg : (t.bindGenerator line start).generator.isSome = true := by
    simp [bindGenerator, resetGenerator, assignParamGenerator, hs, hcmd]
  obtain ⟨t', ht'⟩ := collect_eq .outOfFuel (genericGenerator_serves text) h hf
  exact ⟨t', by rw [commandCompletion, if_pos hg, ht']⟩

/-- An unknown command word leaves the slot empty and nothing is called. -/
theorem commandCompletion_unknown {t : Terminal W} {line : Text} {start : Nat} (hs : start ≠ 0)
    (hcmd : t.cmds.find (completionWord line start) = none) (text : Text) (fuel : ℕ) :
    ∃ t', t.commandCompletion fuel line text start = .ok ([], t') := by
  refine ⟨t.bindGenerator line start, ?_⟩
  simp [commandCompletion, bindGenerator, resetGenerator, assignParamGenerator, hs, hcmd]

end Session

section History

/-- What can happen to the slot and the cursors. A request cut off after `k`
calls is one `bind` and `k` calls; calls out of any session are allowed too. -/
inductive CompletionEvent where
  | bind (line : Text) (start : Nat)
  | call (text : Text) (state : Int)

def completionStep (t : Terminal W) : CompletionEvent → Except Fault (Terminal W)
  | .bind line start => .ok (t.bindGenerator line start)
  | .call text state => (t.genericGenerator text state).map Prod.snd

/-- The terminal after a history of events, or the first fault. -/
def runEvents (history : List CompletionEvent) (t : Terminal W) : Except Fault (Terminal W) :=
  history.foldlM completionStep t

/-- A finished request is one `bind` followed by calls with states `0, 1, 2, ...`. -/
theorem commandCompletion_events {fuel : ℕ} {line text : Text} {start : Nat}
    {t t' : Terminal W} {found : List Text}
    (h : t.commandCompletion fuel line text start = .ok (found, t')) :
    ∃ calls, runEvents (.bind line start ::
      (List.range calls).map fun n : ℕ => .call text n) t = .ok t' := by
  simp only [commandCompletion] at h
  split at h
  · refine ⟨found.length + 1, ?_⟩
    have := collect_calls Fault.outOfFuel h
    change List.foldlM completionStep (t.bindGenerator line start)
      ((List.range (found.length + 1)).map fun n : ℕ => .call text n) = .ok t'
    rw [List.foldlM_map, List.range_eq_range']
    exact this
  · obtain ⟨-, rfl⟩ := Prod.mk.inj (Except.ok.inj h)
    exact ⟨0, rfl⟩

/-- `t` differs from `t₀` in cursors and slot only, and the slot is empty or
bound to a live object. -/
structure Settled (t₀ t : Terminal W) : Prop where
  completion : ∃ obj₀ obj, t₀.cmdCompletion = some obj₀ ∧ t.cmdCompletion = some obj ∧
    obj.address = obj₀.address ∧ obj.completion.items = obj₀.completion.items
  offers : ∀ name text, (t.cmds.find name).map (BasicCommand.offers text) =
    (t₀.cmds.find name).map (BasicCommand.offers text)
  boundCmd : ∀ a, t.generator = some (.cmdCompletion a) →
    a = t.cmdCompletion.map CompletionObj.address
  boundParam : ∀ name, t.generator = some (.paramOf name) → (t.cmds.find name).isSome

theorem settled_registered (order : IterationOrder Text) (batch : List (BasicCommand W)) :
    Settled (({} : Terminal W).registerCommands order batch)
      (({} : Terminal W).registerCommands order batch) where
  completion := ⟨_, _, registerCommands_cmdCompletion order batch _,
    registerCommands_cmdCompletion order batch _, rfl, rfl⟩
  offers _ _ := rfl
  boundCmd _ h := by simp [registerCommands] at h
  boundParam _ h := by simp [registerCommands] at h

theorem Settled.bind {t₀ t : Terminal W} (h : Settled t₀ t) (line : Text) (start : Nat) :
    Settled t₀ (t.bindGenerator line start) where
  completion := by simpa using h.completion
  offers := by simpa using h.offers
  boundCmd a ha := by
    by_cases hs : start = 0
    · simpa [bindGenerator, hs, resetGenerator, assignCmdGenerator, eq_comm] using ha
    · simp [bindGenerator, hs, resetGenerator, assignParamGenerator] at ha
  boundParam name hn := by
    by_cases hs : start = 0
    · simp [bindGenerator, hs, resetGenerator, assignCmdGenerator] at hn
    · simp only [bindGenerator, hs, if_false, resetGenerator, assignParamGenerator,
        Option.map_eq_some_iff] at hn ⊢
      obtain ⟨cmd, hcmd, heq⟩ := hn
      obtain rfl : completionWord line start = name := by simpa using heq
      simp [hcmd]

/-- A callback call on a settled terminal meets no fault and leaves it settled. -/
theorem Settled.call {t₀ t : Terminal W} (h : Settled t₀ t) (text : Text) (state : Int) :
    ∃ t', (t.genericGenerator text state).map Prod.snd = .ok t' ∧ Settled t₀ t' := by
  obtain ⟨obj₀, obj, hobj₀, hobj, haddr, hitems⟩ := h.completion
  unfold genericGenerator
  split
  · exact ⟨t, rfl, h⟩
  · rename_i hg
    have := h.boundCmd none hg
    simp [hobj] at this
  · rename_i address hg
    obtain rfl : address = obj.address := by simpa [hobj] using h.boundCmd _ hg
    refine ⟨_, by simp [hobj, Except.map]; rfl, ?_⟩
    refine ⟨⟨obj₀, _, hobj₀, rfl, haddr, by simpa using hitems⟩, h.offers, ?_, h.boundParam⟩
    intro a ha
    have := h.boundCmd a ha
    simpa [hobj] using this
  · rename_i name hg
    obtain ⟨cmd, hcmd⟩ := Option.isSome_iff_exists.mp (h.boundParam name hg)
    have hsame := (cmd.paramGenerator_same text state).2.2.2
    refine ⟨_, by simp [hcmd, Except.map]; rfl, ?_⟩
    refine ⟨h.completion, ?_, h.boundCmd, ?_⟩
    · intro n u
      by_cases hn : n = name
      · subst n
        rw [← h.offers name u, hcmd]
        simp [hsame u]
      · simpa [find_store_ne _ hn] using h.offers n u
    · intro n hn
      by_cases hne : n = name
      · subst n
        simp
      · simpa [find_store_ne _ hne] using h.boundParam n hn

/-- Every history of requests and callback calls leaves the terminal settled. -/
theorem Settled.run {t₀ t : Terminal W} (h : Settled t₀ t) (history : List CompletionEvent) :
    ∃ t', runEvents history t = .ok t' ∧ Settled t₀ t' := by
  induction history generalizing t with
  | nil => exact ⟨t, rfl, h⟩
  | cons e history ih =>
      cases e with
      | bind line start => exact ih (h.bind line start)
      | call text state =>
          obtain ⟨t₁, hstep, h₁⟩ := h.call text state
          obtain ⟨t', hrun, h'⟩ := ih h₁
          refine ⟨t', ?_, h'⟩
          rw [runEvents, List.foldlM_cons, completionStep, hstep]
          exact hrun

/-- The answer the registered commands determine. -/
def answer (t₀ : Terminal W) (line text : Text) (start : Nat) : List Text :=
  if start = 0 then (t₀.cmdCompletion.map fun obj => obj.completion.offers text).getD []
  else ((t₀.cmds.find (completionWord line start)).map (BasicCommand.offers text)).getD []

theorem nodup_answer (t₀ : Terminal W) (line text : Text) (start : Nat) :
    (t₀.answer line text start).Nodup := by
  unfold answer
  split
  · cases t₀.cmdCompletion with
    | none => exact List.nodup_nil
    | some obj => exact obj.completion.nodup_offers text
  · cases t₀.cmds.find (completionWord line start) with
    | none => exact List.nodup_nil
    | some cmd => exact cmd.nodup_offers text

/-- On a settled terminal a request answers as on the one it started from. -/
theorem Settled.commandCompletion {t₀ t : Terminal W} (h : Settled t₀ t) (line text : Text)
    (start : Nat) {fuel : ℕ} (hf : (t₀.answer line text start).length < fuel) :
    ∃ t', t.commandCompletion fuel line text start = .ok (t₀.answer line text start, t') := by
  by_cases hs : start = 0
  · subst hs
    obtain ⟨obj₀, obj, hobj₀, hobj, -, hitems⟩ := h.completion
    have hoff : t₀.answer line text 0 = obj.completion.offers text := by
      simp [answer, hobj₀, Completion.offers, hitems]
    rw [hoff] at hf ⊢
    exact commandCompletion_names hobj line text hf
  · have hoff := h.offers (completionWord line start) text
    simp only [answer, if_neg hs, ← hoff] at hf ⊢
    cases hcmd : t.cmds.find (completionWord line start) with
    | none => exact commandCompletion_unknown hs hcmd text fuel
    | some cmd =>
        rw [hcmd] at hf
        exact commandCompletion_params hs hcmd text hf

end History

section Answers

variable (order : IterationOrder Text)

/-- After one registration, and after any history of events, a request answers
with exactly the matching command names, or with the matching parameter names of
the command its line names. The answer is the one given without any history. -/
theorem commandCompletion_exact (batch : List (BasicCommand W))
    (history : List CompletionEvent) :
    ∃ t, runEvents history (({} : Terminal W).registerCommands order batch) = .ok t ∧
      ∀ line text start, ∃ found : List Text, found.Nodup ∧
        (∀ fuel, found.length < fuel →
          (∃ t', t.commandCompletion fuel line text start = .ok (found, t')) ∧
          ∃ t', (({} : Terminal W).registerCommands order batch).commandCompletion
            fuel line text start = .ok (found, t')) ∧
        ∀ c, c ∈ found ↔ text ≠ [] ∧ text <+: c ∧
          if start = 0 then ∃ cmd ∈ batch, cmd.name = c
          else ∃ cmd, (batch.find? fun cmd =>
              cmd.name = (line.take start).takeWhile fun c => c ≠ space) = some cmd ∧
            c ∈ cmd.params := by
  have h₀ := settled_registered order batch
  obtain ⟨t, hrun, ht⟩ := h₀.run history
  refine ⟨t, hrun, fun line text start =>
    ⟨(({} : Terminal W).registerCommands order batch).answer line text start, ?_, ?_, ?_⟩⟩
  · exact nodup_answer _ line text start
  · exact fun fuel hf => ⟨ht.commandCompletion line text start hf,
      h₀.commandCompletion line text start hf⟩
  · intro c
    unfold answer
    split
    · simp only [registerCommands_cmdCompletion, Option.map_some, Option.getD_some,
        Completion.mem_offers, Completion.mem_makeUnique, KeySet.mem_insertAll, KeySet.notMem_empty,
        List.mem_map]
      tauto
    · simp only [registerCommands_cmds, find_indexBy_empty, completionWord]
      cases batch.find? fun cmd =>
          cmd.name = (line.take start).takeWhile fun c => c ≠ space with
      | none => simp
      | some cmd =>
          simp only [Option.map_some, Option.getD_some, BasicCommand.mem_offers,
            Option.some.injEq, exists_eq_left']
          tauto

/-- Completion at the start of a line offers exactly the commands that
`execute_command` does not reject. -/
def OffersRunnable (batches : List (List (BasicCommand W))) : Prop :=
  ∀ line text, text ≠ [] → ∃ found : List Text,
    (∀ fuel, found.length < fuel → ∃ t',
      (({} : Terminal W).registerAll order batches).commandCompletion fuel line text 0 =
        .ok (found, t')) ∧
    ∀ c, c ∈ found ↔
      ((({} : Terminal W).registerAll order batches).cmds.findCommand c).isOk = true ∧ text <+: c

/-- There is a last batch, and it registers again every nonempty name of the
earlier ones. -/
def LastBatchCovers (batches : List (List (BasicCommand W))) : Prop :=
  ∃ last, batches.getLast? = some last ∧
    ∀ cmd ∈ batches.flatten, cmd.name ≠ [] → ∃ cmd' ∈ last, cmd'.name = cmd.name

theorem registerAll_cmdCompletion {batches : List (List (BasicCommand W))}
    {last : List (BasicCommand W)} (h : batches.getLast? = some last) (t : Terminal W) :
    ∃ address, (t.registerAll order batches).cmdCompletion =
      some ⟨address,
        Completion.makeUnique order (KeySet.insertAll (last.map BasicCommand.name) ∅)⟩ := by
  obtain ⟨init, rfl⟩ := List.getLast?_eq_some_iff.mp h
  rw [registerAll, List.foldl_append]
  exact ⟨_, registerCommands_cmdCompletion order last _⟩

theorem findCommand_registerAll (batches : List (List (BasicCommand W))) (c : Text) :
    ((({} : Terminal W).registerAll order batches).cmds.findCommand c).isOk = true ↔
      ∃ cmd ∈ batches.flatten, cmd.name = c := by
  rw [Commands.findCommand_isOk_iff, registerAll_cmds, keySet_indexBy, KeySet.mem_insertAll,
    List.mem_map]
  exact or_iff_right (KeySet.notMem_empty c)

theorem mem_offers_batch (text c : Text) (batch : List (BasicCommand W)) :
    c ∈ (Completion.makeUnique order
        (KeySet.insertAll (batch.map BasicCommand.name) ∅)).offers text ↔
      text ≠ [] ∧ (∃ cmd ∈ batch, cmd.name = c) ∧ text <+: c := by
  simp [Completion.mem_offers]

/-- Agreement needs a registration, since the slot of the fresh terminal is bound
to a null pointer, and then needs every earlier name in the last batch. -/
theorem lastBatchCovers_of_offersRunnable {batches : List (List (BasicCommand W))}
    (h : OffersRunnable order batches) : LastBatchCovers batches := by
  cases hlast : batches.getLast? with
  | none =>
      obtain rfl : batches = [] := List.getLast?_eq_none_iff.mp hlast
      obtain ⟨found, hrun, -⟩ := h [] [space] (by simp)
      obtain ⟨t', ht'⟩ := hrun (found.length + 1) (Nat.lt_succ_self _)
      simp [registerAll, commandCompletion, bindGenerator, resetGenerator, assignCmdGenerator,
        collect, genericGenerator] at ht'
  | some last =>
      obtain ⟨address, hobj⟩ := registerAll_cmdCompletion order hlast ({} : Terminal W)
      refine ⟨last, hlast, fun cmd hcmd hne => ?_⟩
      obtain ⟨found, hrun, hmem⟩ := h [] cmd.name hne
      let offered := (Completion.makeUnique order
        (KeySet.insertAll (last.map BasicCommand.name) ∅)).offers cmd.name
      have hfuel : offered.length < found.length + offered.length + 1 := by omega
      obtain ⟨t₁, ht₁⟩ := hrun (found.length + offered.length + 1) (by omega)
      obtain ⟨t₂, ht₂⟩ := commandCompletion_names hobj [] cmd.name hfuel
      obtain ⟨hfound, -⟩ := Prod.mk.inj (Except.ok.inj (ht₁.symm.trans ht₂))
      have hc : cmd.name ∈ found := (hmem cmd.name).mpr
        ⟨(findCommand_registerAll order batches _).mpr ⟨cmd, hcmd, rfl⟩, List.prefix_rfl⟩
      rw [hfound] at hc
      exact ((mem_offers_batch order _ _ last).mp hc).2.1

theorem offersRunnable_of_lastBatchCovers {batches : List (List (BasicCommand W))}
    (h : LastBatchCovers batches) : OffersRunnable order batches := by
  obtain ⟨last, hlast, hcover⟩ := h
  obtain ⟨address, hobj⟩ := registerAll_cmdCompletion order hlast ({} : Terminal W)
  intro line text ht
  refine ⟨_, fun fuel hf => commandCompletion_names hobj line text hf, fun c => ?_⟩
  rw [mem_offers_batch, findCommand_registerAll]
  constructor
  · rintro ⟨-, ⟨cmd, hcmd, hname⟩, hpre⟩
    have hmem : cmd ∈ batches.flatten :=
      List.mem_flatten.mpr ⟨last, List.mem_of_getLast? hlast, hcmd⟩
    exact ⟨⟨cmd, hmem, hname⟩, hpre⟩
  · rintro ⟨⟨cmd, hcmd, rfl⟩, hpre⟩
    have hne : cmd.name ≠ [] := fun h => ht (by simpa [h] using hpre)
    exact ⟨ht, hcover cmd hcmd hne, hpre⟩

/-- Completion and execution agree on the command names exactly when the last
batch covers all of them. -/
theorem offersRunnable_iff (batches : List (List (BasicCommand W))) :
    OffersRunnable order batches ↔ LastBatchCovers batches :=
  ⟨lastBatchCovers_of_offersRunnable order, offersRunnable_of_lastBatchCovers order⟩

/-- Registering `help` and then `exit` forgets `help`, and a fresh terminal calls
through a null completion. -/
theorem offersRunnable_fails :
    ¬ OffersRunnable (IterationOrder.latestFirst Text)
        [[(⟨lit "help", none, none⟩ : BasicCommand Unit)], [⟨lit "exit", none, none⟩]] ∧
      ¬ OffersRunnable (IterationOrder.latestFirst Text)
        ([] : List (List (BasicCommand Unit))) := by
  constructor
  · intro h
    obtain ⟨last, hl, hcover⟩ := lastBatchCovers_of_offersRunnable _ h
    obtain rfl : [⟨lit "exit", none, none⟩] = last := Option.some.inj hl
    obtain ⟨cmd, hcmd, hname⟩ := hcover ⟨lit "help", none, none⟩ (by simp) (by decide)
    obtain rfl := List.mem_singleton.mp hcmd
    exact absurd hname (by decide)
  · intro h
    obtain ⟨last, hl, -⟩ := lastBatchCovers_of_offersRunnable _ h
    simp at hl

end Answers

end Terminal

end IoEmulator.Termctl
