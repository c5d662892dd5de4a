import IoEmulator.CtfIo.Ledger
import IoEmulator.Foundation.Unwinding

/-!
# Sessions cut down to some keys

Lines about other keys do not show. What a session prints at the lines about some
keys, and what these keys hold in the end, is what the session of these lines
alone prints and leaves.
-/

namespace IoEmulator.CtfIo

open Conf Termctl Foundation.Enumeration Foundation.FirstWinsMap Foundation.KeyedLog
open Foundation.InterruptibleLoop Foundation.Unwinding

variable {σ F : Type} (P : Platform σ F) (order : IterationOrder Text) (parser : IoParser)

/-- The key that a get reads. -/
def getKey? : List Text → Option Key
  | [] => none
  | name :: _ => (parser.findItem name).bind fun item => keyOf P item item.pr

/-- The statement reads or writes one of the keys, or ends the session. -/
def Statement.concerns (keys : Key → Bool) (st : Statement) : Bool :=
  match st with
  | .exit => true
  | .ask .get args => ((getKey? P parser args).map keys).getD false
  | st => ((st.write? P parser).map fun p => keys p.1).getD false

theorem Device.foldl_outputs (d : Device σ) (sts : List Statement) :
    (sts.foldl (Device.step P order parser) d).outputs = d.outputs ++
      (visible (Device.step P order parser) (Device.prints P order parser) (fun _ => true) d
        sts).flatten := by
  induction sts generalizing d with
  | nil => simp [visible]
  | cons st sts ih =>
      rw [List.foldl_cons, ih, Device.step_outputs, visible, if_pos rfl, List.flatten_cons,
        List.append_assoc]

variable {P} {contents : σ → Values F} (h : Reliable contents P) (keys : Key → Bool)

theorem Statement.keys_of_write? {st : Statement} {key : Key} {v : Raw F}
    (hwrite : st.write? P parser = some (key, v)) : st.concerns P parser keys = keys key := by
  match st with
  | .ask .set args => simp [Statement.concerns, hwrite]

include h

/-- Contents that agree at the key of a get let it print and throw the same. -/
theorem get_outputs_congr {args : List Text} {key : Key} (hkey : getKey? P parser args = some key)
    {io io' : σ} (hagree : contents io key = contents io' key) :
    (performCommandGet P args parser io).outputs =
      (performCommandGet P args parser io').outputs := by
  by_cases hitem : ∃ item, Readable parser args item
  · obtain ⟨item, hitem⟩ := hitem
    have hitem' := hitem
    obtain ⟨name, rest, rfl, hfind, -⟩ := hitem'
    have hkeyOf : keyOf P item item.pr = some key := by simpa [getKey?, hfind] using hkey
    obtain ⟨hprinted, hok⟩ := h.get parser hitem hkeyOf io
    obtain ⟨hprinted', hok'⟩ := h.get parser hitem hkeyOf io'
    rw [Performed.outputs, Performed.outputs, hprinted, hprinted', hok, hok', hagree]
  · obtain ⟨e, hrun⟩ := get_of_not_readable P parser (not_exists.mp hitem)
    rw [hrun, hrun, Performed.outputs, Performed.outputs]

theorem set_outputs_congr {args : List Text} {p : Key × Raw F}
    (hwrite : Statement.write? P parser (.ask .set args) = some p) (io io' : σ) :
    (performCommandSet P args parser io).outputs =
      (performCommandSet P args parser io').outputs := by
  obtain ⟨name, value, item, raw, rfl, hfind, hprw, hconv, -⟩ :=
    (Statement.write?_set_eq_some_iff P parser args p).mp hwrite
  obtain ⟨-, hprinted, hok⟩ := h.set parser hfind hprw hconv io
  obtain ⟨-, hprinted', hok'⟩ := h.set parser hfind hprw hconv io'
  rw [Performed.outputs, Performed.outputs, hprinted, hprinted', hok, hok']

/-- States with the same contents at the keys cannot be told apart by lines about
the keys, and other lines do not change these contents. -/
theorem unwinds_keys :
    Unwinds (Device.step P order parser) (Device.prints P order parser)
      (Statement.concerns P parser keys)
      (fun d d' => ∀ key, keys key = true → contents d.io key = contents d'.io key) where
  skip := by
    intro d d' st hirrelevant hagree key hkey
    rw [← hagree key hkey, h.step_contents order parser]
    cases hwrite : st.write? P parser with
    | none => rfl
    | some p =>
        have hother : keys p.1 = false := by
          rw [← Statement.keys_of_write? parser keys hwrite, hirrelevant]
        have hne : key ≠ p.1 := by
          rintro rfl
          rw [hkey] at hother
          cases hother
        exact Function.update_of_ne hne _ _
  step := by
    intro d d' st _ hagree key hkey
    rw [h.step_contents order parser, h.step_contents order parser]
    cases st.write? P parser with
    | none => exact hagree key hkey
    | some p =>
        by_cases hp : key = p.1
        · subst hp
          simp
        · simp only [Function.update_of_ne hp]
          exact hagree key hkey
  out := by
    intro d d' st hrelevant hagree
    match st with
    | .exit => rfl
    | .ask .get args =>
        simp only [Statement.concerns] at hrelevant
        cases hkey : getKey? P parser args with
        | none => simp [hkey] at hrelevant
        | some key =>
            have hk : keys key = true := by simpa [hkey] using hrelevant
            exact get_outputs_congr parser h hkey (hagree key hk)
    | .ask .set args =>
        simp only [Statement.concerns] at hrelevant
        cases hwrite : Statement.write? P parser (.ask .set args) with
        | none => simp [hwrite] at hrelevant
        | some p => exact set_outputs_congr parser h hwrite d.io d'.io

/-- The program on the lines about some keys prints what the program on all lines
prints at them, and leaves the same values under the keys. -/
theorem program_sliced (name : Text) (io : σ) (lines : List (Option Text)) :
    let kept := lines.filter fun line => (Statement.ofLine line).concerns P parser keys
    let served := upToFirst (fun st => decide (st = .exit)) (lines.map Statement.ofLine)
    (programOn P order parser name io kept).console =
        (visible (Device.step P order parser) (Device.prints P order parser)
          (Statement.concerns P parser keys) { io := io } served).flatten.flatMap Output.lines ∧
      ∀ key, keys key = true →
        contents (programOn P order parser name io kept).world.io key =
          contents (programOn P order parser name io lines).world.io key := by
  intro kept served
  have hkept : upToFirst (fun st => decide (st = .exit)) (kept.map Statement.ofLine) =
      served.filter (Statement.concerns P parser keys) := by
    rw [← upToFirst_filter, List.filter_map]
    · rfl
    · intro st hst
      rw [of_decide_eq_true hst]
      rfl
  have hall : ∀ st ∈ served.filter (Statement.concerns P parser keys),
      st.concerns P parser keys = true := fun st hst => (List.mem_filter.mp hst).2
  obtain ⟨ht, -⟩ := program_tracks P order parser name lines.length io
    (lines ++ₛ Stream'.const none)
  obtain ⟨ht', -⟩ := program_tracks P order parser name kept.length io
    (kept ++ₛ Stream'.const none)
  let start : Device σ := { io := io }
  have hsame : ∀ key, keys key = true → contents start.io key = contents start.io key :=
    fun key _ => rfl
  obtain ⟨hvisible, hfinal⟩ := (unwinds_keys order parser h keys).purge hsame served
  rw [Device.session_eq, servedStatements_append] at ht ht'
  rw [hkept] at ht'
  constructor
  · rw [programOn, ht'.console, Device.foldl_outputs, ← visible_of_forall hall, hvisible]
    rfl
  · intro key hkey
    rw [programOn, programOn, ht.world, ht'.world]
    exact (hfinal key hkey).symm

omit h in
/-- The get of the second item and the listing do not concern the value that the
set leaves. -/
theorem program_sliced_sample :
    (programOn (ledger memoryPlatform) (IterationOrder.latestFirst Text) aliasParser (lit "t")
        emptyLedger [some (lit "set b 7"), some (lit "exit")]).world.io.values (.int, lit "p") =
      (programOn (ledger memoryPlatform) (IterationOrder.latestFirst Text) aliasParser (lit "t")
        emptyLedger [some (lit "set b 7"), some (lit "get b"), some (lit "info all"),
          some (lit "exit")]).world.io.values (.int, lit "p") := by
  have hkept : [some (lit "set b 7"), some (lit "get b"), some (lit "info all"),
      some (lit "exit")].filter (fun line => (Statement.ofLine line).concerns
        (ledger memoryPlatform) aliasParser (fun key => decide (key = (.int, lit "p")))) =
      [some (lit "set b 7"), some (lit "exit")] := by decide +kernel
  have hsliced := (program_sliced (IterationOrder.latestFirst Text) aliasParser
    (Ledger.reliable memoryPlatform) (fun key => decide (key = (.int, lit "p"))) (lit "t")
    emptyLedger [some (lit "set b 7"), some (lit "get b"), some (lit "info all"),
      some (lit "exit")]).2 (.int, lit "p") rfl
  rw [hkept] at hsliced
  exact hsliced

end IoEmulator.CtfIo
