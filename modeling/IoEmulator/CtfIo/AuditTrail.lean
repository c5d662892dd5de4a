import IoEmulator.CtfIo.LayerSimulation

/-!
# What is printed accounts for every call

Each call that reaches the IO layer in a session is followed by one line that
says how it ended, and no other line says so. The two sequences correspond, in
order, on any layer.
-/

namespace IoEmulator.CtfIo

open Conf Termctl Foundation.Enumeration Foundation.InterruptibleLoop

variable {σ F : Type} (P : Platform σ F) (order : IterationOrder Text) (parser : IoParser)

/-- The report of a verdict is about this call: one of an item under the io name
derived for its parameter, and with the value that was written. -/
def Accounts (call : IoCall F) (r : Report) : Prop :=
  ∃ key item, parser.findItem key = some item ∧ kindOf item.dt = some call.kind ∧
    match r with
    | .okRead name pr _ | .failRead name pr => name = item.name ∧ pr = item.pr ∧
        ∃ raw : Raw F, call = Variant.readCall ⟨raw, P.toIoName raw.kind pr⟩
    | .okWrite name prw shown => name = item.name ∧ prw = prwOf item ∧
        ∃ raw : Raw F, call = Variant.writeCall ⟨raw, P.toIoName raw.kind prw⟩ ∧
          shown = raw.display P
    | .failWrite name prw value => name = item.name ∧ prw = prwOf item ∧
        ∃ raw : Raw F, call = Variant.writeCall ⟨raw, P.toIoName raw.kind prw⟩ ∧
          convert P item.dt value = .ok raw
    | _ => False

/-- What a command prints between its warnings and its verdict is no verdict. -/
theorem filter_isVerdict {α : Type} (a : IoAnswer σ α) {warning : List Report}
    (hwarning : warning = [] ∨ warning = [.emptyPw]) (last : Report)
    (hlast : last.isVerdict = true) :
    (warning ++ a.complaint ++ [last]).filter Report.isVerdict = [last] := by
  have hw : warning.filter Report.isVerdict = [] := by
    rcases hwarning with rfl | rfl <;> rfl
  have hc : a.complaint.filter Report.isVerdict = [] := by
    unfold IoAnswer.complaint
    split <;> rfl
  rw [List.filter_append, List.filter_append, hw, hc, List.filter_cons_of_pos hlast]
  rfl

theorem get_accounts (args : List Text) (s : σ × List (IoCall F)) :
    ∃ calls, (performCommandGet P.logged args parser s).io.2 = s.2 ++ calls ∧
      List.Forall₂ (Accounts P parser) calls
        ((performCommandGet P.logged args parser s).printed.filter Report.isVerdict) := by
  by_cases hitem : ∃ item, Readable parser args item
  · obtain ⟨item, hitem⟩ := hitem
    obtain ⟨v, hkind, hparam, hrun⟩ := hitem.run P.logged parser s
    obtain ⟨name, rest, rfl, hfind, -⟩ := hitem
    refine ⟨[v.readCall], ?_, ?_⟩
    · rw [hrun, Variant.read_logged]
      rfl
    · have hcall : ∃ raw : Raw F,
          v.readCall = Variant.readCall ⟨raw, P.toIoName raw.kind item.pr⟩ := by
        refine ⟨v.var, ?_⟩
        obtain ⟨raw, param⟩ := v
        obtain rfl : param = P.toIoName raw.kind item.pr := hparam
        rfl
      have hkind' : kindOf item.dt = some v.readCall.kind := by
        rw [v.readCall_spec.1]
        exact hkind
      rw [hrun]
      by_cases hok : (v.read P.logged s).success = true
      · rw [if_pos hok]
        have hverdict := filter_isVerdict (v.read P.logged s) (Or.inl rfl)
          (.okRead item.name item.pr ((v.read P.logged s).out.var.display P.logged)) rfl
        rw [List.nil_append] at hverdict
        rw [hverdict]
        exact .cons ⟨name, item, hfind, hkind', rfl, rfl, hcall⟩ .nil
      · rw [if_neg hok]
        have hverdict := filter_isVerdict (v.read P.logged s) (Or.inl rfl)
          (.failRead item.name item.pr) rfl
        rw [List.nil_append] at hverdict
        rw [hverdict]
        exact .cons ⟨name, item, hfind, hkind', rfl, rfl, hcall⟩ .nil
  · obtain ⟨e, hrun⟩ := get_of_not_readable P.logged parser (not_exists.mp hitem)
    rw [hrun]
    exact ⟨[], (List.append_nil _).symm, .nil⟩

theorem set_accounts (args : List Text) (s : σ × List (IoCall F)) :
    ∃ calls, (performCommandSet P.logged args parser s).io.2 = s.2 ++ calls ∧
      List.Forall₂ (Accounts P parser) calls
        ((performCommandSet P.logged args parser s).printed.filter Report.isVerdict) := by
  rcases set_cases P.logged parser args s with
    ⟨e, printed, hrun, hprinted⟩ | ⟨name, value, item, raw, warning, rfl, hfind, hconv, hw, hrun⟩
  · rw [hrun]
    refine ⟨[], (List.append_nil _).symm, ?_⟩
    rcases hprinted with rfl | rfl
    · exact .nil
    · exact .nil
  · have hconv' : convert P item.dt value = .ok raw := hconv
    let v : Variant F := ⟨raw, P.toIoName raw.kind (prwOf item)⟩
    have hkind : kindOf item.dt = some v.writeCall.kind := by
      rw [v.writeCall_spec.1]
      exact kindOf_of_convert P hconv'
    refine ⟨[v.writeCall], ?_, ?_⟩
    · rw [hrun]
      change (v.write P.logged s).io.2 = _
      rw [Variant.write_logged]
      rfl
    · rw [hrun]
      simp only
      split
      · rw [filter_isVerdict _ hw _ rfl]
        exact .cons ⟨name, item, hfind, hkind, rfl, rfl, raw, rfl, rfl⟩ .nil
      · rw [filter_isVerdict _ hw _ rfl]
        exact .cons ⟨name, item, hfind, hkind, rfl, rfl, raw, rfl, hconv'⟩ .nil

/-- The calls of a command correspond to the verdicts it prints. -/
theorem performCommand_accounts (which : Which) (args : List Text) (s : σ × List (IoCall F)) :
    ∃ calls, (performCommand P.logged order which args parser s).io.2 = s.2 ++ calls ∧
      List.Forall₂ (Accounts P parser) calls
        ((performCommand P.logged order which args parser s).printed.filter Report.isVerdict) := by
  cases which with
  | get => exact get_accounts P parser args s
  | set => exact set_accounts P parser args s
  | info =>
      obtain ⟨hio, hprinted⟩ := info_spec parser order args s
      have hnone : (performCommand P.logged order .info args parser s).printed.filter
          Report.isVerdict = [] := by
        rw [List.filter_eq_nil_iff]
        intro r hr
        obtain ⟨n, item, -, rfl⟩ := hprinted r hr
        simp [Report.isVerdict]
      refine ⟨[], ?_, ?_⟩
      · rw [List.append_nil]
        exact congrArg Prod.snd hio
      · rw [hnone]
        exact .nil

/-- The verdict that an output is. -/
def Output.verdict? : Output → Option Report
  | .report r => if r.isVerdict then some r else none
  | .helpText | .error _ => none

theorem filterMap_verdict?_outputs (r : Performed σ) :
    r.outputs.filterMap Output.verdict? = r.printed.filter Report.isVerdict := by
  have hthrown : (thrown r.outcome).filterMap Output.verdict? = [] := by
    cases r.outcome <;> rfl
  rw [Performed.outputs, List.filterMap_append, hthrown, List.append_nil]
  induction r.printed with
  | nil => rfl
  | cons r l ih =>
      by_cases hr : r.isVerdict = true <;> simp [Output.verdict?, hr, ih]

/-- The calls made so far correspond to the verdicts printed so far. -/
def Device.Accounted (d : Device (σ × List (IoCall F))) : Prop :=
  List.Forall₂ (Accounts P parser) d.io.2 (d.outputs.filterMap Output.verdict?)

theorem Device.Accounted.step {d : Device (σ × List (IoCall F))}
    (h : d.Accounted P parser) (st : Statement) :
    (d.step P.logged order parser st).Accounted P parser := by
  have hquiet : ∀ o : Output, o.verdict? = none →
      ({ d with outputs := d.outputs ++ [o] } : Device _).Accounted P parser := by
    intro o ho
    simpa only [Device.Accounted, List.filterMap_append, List.filterMap_cons_none ho,
      List.filterMap_nil, List.append_nil] using h
  cases st with
  | blank => exact hquiet _ rfl
  | unknown word => exact hquiet _ rfl
  | help => exact hquiet _ rfl
  | exit => exact h
  | ask which args =>
      obtain ⟨calls, hlog, hcalls⟩ := performCommand_accounts P order parser which args d.io
      simp only [Device.Accounted, Device.step, hlog, List.filterMap_append,
        filterMap_verdict?_outputs]
      exact List.rel_append h hcalls

/-- On any layer and any input, the calls that the program makes correspond one by
one to the verdicts among what it prints. The program is the one that runs on
the layer without a log. -/
theorem program_accounts (name : Text) (n : ℕ) (io : σ) (input : Stream' (Option Text)) :
    let r := (program P.logged order parser name n (io, []) input).1
    let r' := (program P order parser name n io input).1
    let d := (Device.session P order parser n io (input.map Statement.ofLine)).1
    (r.world.io.1 = r'.world.io ∧ r.console = r'.console ∧
      r.term.running = r'.term.running) ∧
    r'.console = d.outputs.flatMap Output.lines ∧
    List.Forall₂ (Accounts P parser) r.world.io.2 (d.outputs.filterMap Output.verdict?) := by
  intro r r' d
  have hio : ((io, []) : σ × List (IoCall F)).1 = io := rfl
  obtain ⟨hd, -⟩ := sessions_alike (logged_simulates P) order parser n hio
    (input.map Statement.ofLine)
  obtain ⟨ht, -⟩ := program_tracks P.logged order parser name n (io, []) input
  obtain ⟨ht', -⟩ := program_tracks P order parser name n io input
  refine ⟨ht.alike order parser ht' hd, ht'.console, ?_⟩
  rw [ht.world, ← hd.outputs, Device.session_eq]
  change Device.Accounted P parser _
  generalize hstart : ({ io := (io, []) } : Device (σ × List (IoCall F))) = d
  have hd : d.Accounted P parser := by
    rw [← hstart]
    exact .nil
  exact List.foldlRecOn _ _ hd fun d hd st _ => hd.step P order parser st

end IoEmulator.CtfIo
