import IoEmulator.CtfIo.Device

/-!
# IO layers that answer alike

Two layers whose states correspond answer alike when corresponding states give
the same results and the same values, and go on corresponding. The program sees
a layer through its answers only, so it cannot tell such layers apart.

## Implementation notes

What a read that fails leaves in its out-parameter is not compared.
-/

namespace IoEmulator.CtfIo

open Conf Termctl Foundation.Enumeration Foundation.FirstWinsMap Foundation.InterruptibleLoop

variable {σ τ F : Type} {R : σ → τ → Prop}

/-- Corresponding answers to a call. -/
structure AnswersAlike {α : Type} (R : σ → τ → Prop) (a : IoAnswer σ α) (a' : IoAnswer τ α) :
    Prop where
  io : R a.io a'.io
  result : a.result = a'.result
  out : a.success = true → a.out = a'.out

namespace AnswersAlike

variable {α : Type} {a : IoAnswer σ α} {a' : IoAnswer τ α}

theorem success (h : AnswersAlike R a a') : a.success = a'.success := by
  rw [IoAnswer.success, IoAnswer.success, h.result]

theorem complaint (h : AnswersAlike R a a') : a.complaint = a'.complaint := by
  rw [IoAnswer.complaint, IoAnswer.complaint, h.result]

theorem map {β : Type} (h : AnswersAlike R a a') (f : α → β) :
    AnswersAlike R (a.map f) (a'.map f) :=
  ⟨h.io, h.result, fun hok => congrArg f (h.out hok)⟩

end AnswersAlike

/-- The two layers convert and name alike, and answer every call alike. -/
structure Simulates (R : σ → τ → Prop) (P : Platform σ F) (P' : Platform τ F) : Prop where
  zero : P.zero = P'.zero
  stod : P.stod = P'.stod
  toString : P.toString = P'.toString
  toIoName : P.toIoName = P'.toIoName
  readInt : ∀ name old io io', R io io' →
    AnswersAlike R (P.ioReadInt name old io) (P'.ioReadInt name old io')
  readDouble : ∀ name old io io', R io io' →
    AnswersAlike R (P.ioReadDouble name old io) (P'.ioReadDouble name old io')
  readString : ∀ name old io io', R io io' →
    AnswersAlike R (P.ioReadString name old io) (P'.ioReadString name old io')
  writeInt : ∀ name n io io', R io io' →
    AnswersAlike R (P.ioWriteInt name n io) (P'.ioWriteInt name n io')
  writeDouble : ∀ name x io io', R io io' →
    AnswersAlike R (P.ioWriteDouble name x io) (P'.ioWriteDouble name x io')
  writeString : ∀ name s io io', R io io' →
    AnswersAlike R (P.ioWriteString name s io) (P'.ioWriteString name s io')

namespace Simulates

variable {P : Platform σ F} {P' : Platform τ F} (h : Simulates R P P')

include h

theorem convert (type : DataType) (val : Text) : convert P type val = convert P' type val := by
  cases type <;> simp only [CtfIo.convert, h.zero, h.stod]

theorem make (type : DataType) (param val : Text) :
    Variant.make P type param val = Variant.make P' type param val := by
  simp only [Variant.make, Variant.reset, Variant.setValueFromStr, h.convert, h.toIoName]

theorem display (raw : Raw F) : raw.display P = raw.display P' := by
  cases raw <;> simp only [Raw.display, h.toString]

theorem read (v : Variant F) {io : σ} {io' : τ} (hio : R io io') :
    AnswersAlike R (v.read P io) (v.read P' io') := by
  obtain ⟨raw, param⟩ := v
  cases raw with
  | int n => exact (h.readInt param n io io' hio).map fun n => Variant.mk (.int n) param
  | double x => exact (h.readDouble param x io io' hio).map fun x => Variant.mk (.double x) param
  | string s => exact (h.readString param s io io' hio).map fun s => Variant.mk (.string s) param

theorem write (v : Variant F) {io : σ} {io' : τ} (hio : R io io') :
    AnswersAlike R (v.write P io) (v.write P' io') := by
  obtain ⟨raw, param⟩ := v
  cases raw with
  | int n => exact h.writeInt param n io io' hio
  | double x => exact h.writeDouble param x io io' hio
  | string s => exact h.writeString param s io io' hio

end Simulates

/-- The two have printed and ended alike. -/
structure PerformedAlike (R : σ → τ → Prop) (r : Performed σ) (r' : Performed τ) : Prop where
  io : R r.io r'.io
  printed : r.printed = r'.printed
  outcome : r.outcome = r'.outcome

namespace Simulates

variable {P : Platform σ F} {P' : Platform τ F} (h : Simulates R P P') (parser : IoParser)
  (order : IterationOrder Text)

include h

theorem performCommandGet (args : List Text) {io : σ} {io' : τ} (hio : R io io') :
    PerformedAlike R (performCommandGet P args parser io)
      (performCommandGet P' args parser io') := by
  cases args with
  | nil => exact ⟨hio, rfl, rfl⟩
  | cons name rest =>
      cases hfind : parser.findItem name with
      | none =>
          simp only [CtfIo.performCommandGet, hfind]
          exact ⟨hio, rfl, rfl⟩
      | some item =>
          by_cases hpr : item.pr = []
          · simp only [CtfIo.performCommandGet, hfind, if_pos hpr]
            exact ⟨hio, rfl, rfl⟩
          · simp only [CtfIo.performCommandGet, hfind, if_neg hpr, ← h.make]
            cases Variant.make P item.dt item.pr [] with
            | error e => exact ⟨hio, rfl, rfl⟩
            | ok val =>
                have hread := h.read val hio
                simp only [← hread.success, ← hread.complaint]
                by_cases hok : (val.read P io).success = true
                · simp only [if_pos hok, ← hread.out hok, ← h.display]
                  exact ⟨hread.io, rfl, rfl⟩
                · simp only [if_neg hok]
                  exact ⟨hread.io, rfl, rfl⟩

theorem performCommandSet (args : List Text) {io : σ} {io' : τ} (hio : R io io') :
    PerformedAlike R (performCommandSet P args parser io)
      (performCommandSet P' args parser io') := by
  match args with
  | [] => exact ⟨hio, rfl, rfl⟩
  | [_] => exact ⟨hio, rfl, rfl⟩
  | _ :: _ :: _ :: _ => exact ⟨hio, rfl, rfl⟩
  | [name, value] =>
      cases hfind : parser.findItem name with
      | none =>
          simp only [CtfIo.performCommandSet, hfind]
          exact ⟨hio, rfl, rfl⟩
      | some item =>
          by_cases hprw : prwOf item = []
          · simp only [CtfIo.performCommandSet, hfind, if_pos hprw]
            exact ⟨hio, rfl, rfl⟩
          · simp only [CtfIo.performCommandSet, hfind, if_neg hprw, ← h.make]
            cases Variant.make P item.dt (prwOf item) value with
            | error e => exact ⟨hio, rfl, rfl⟩
            | ok val =>
                have hwrite := h.write val hio
                simp only [← hwrite.success, ← hwrite.complaint, ← h.display]
                by_cases hok : (val.write P io).success = true
                · simp only [if_pos hok]
                  exact ⟨hwrite.io, rfl, rfl⟩
                · simp only [if_neg hok]
                  exact ⟨hwrite.io, rfl, rfl⟩

theorem performCommand (which : Which) (args : List Text) {io : σ} {io' : τ} (hio : R io io') :
    PerformedAlike R (performCommand P order which args parser io)
      (performCommand P' order which args parser io') := by
  cases which with
  | get => exact h.performCommandGet parser args hio
  | set => exact h.performCommandSet parser args hio
  | info =>
      cases args with
      | nil => exact ⟨hio, rfl, rfl⟩
      | cons name rest =>
          simp only [CtfIo.performCommand, performCommandInfo]
          split
          · exact ⟨hio, rfl, rfl⟩
          · split
            · exact ⟨hio, rfl, rfl⟩
            · exact ⟨hio, rfl, rfl⟩

end Simulates

theorem PerformedAlike.outputs {r : Performed σ} {r' : Performed τ} (h : PerformedAlike R r r') :
    r.outputs = r'.outputs := by
  rw [Performed.outputs, Performed.outputs, h.printed, h.outcome]

/-- Devices on two layers that have printed and stopped alike. -/
structure DevicesAlike (R : σ → τ → Prop) (d : Device σ) (d' : Device τ) : Prop where
  io : R d.io d'.io
  outputs : d.outputs = d'.outputs
  up : d.up = d'.up

section Sessions

variable {P : Platform σ F} {P' : Platform τ F} (h : Simulates R P P')
  (order : IterationOrder Text) (parser : IoParser)

include h

theorem DevicesAlike.step {d : Device σ} {d' : Device τ} (hd : DevicesAlike R d d')
    (st : Statement) : DevicesAlike R (d.step P order parser st) (d'.step P' order parser st) := by
  cases st with
  | blank => exact ⟨hd.io, congrArg (· ++ _) hd.outputs, hd.up⟩
  | unknown word => exact ⟨hd.io, congrArg (· ++ _) hd.outputs, hd.up⟩
  | help => exact ⟨hd.io, congrArg (· ++ _) hd.outputs, hd.up⟩
  | exit => exact ⟨hd.io, hd.outputs, rfl⟩
  | ask which args =>
      have hr := h.performCommand parser order which args hd.io
      exact ⟨hr.io, congrArg₂ (· ++ ·) hd.outputs hr.outputs, hd.up⟩

theorem sessions_alike (n : ℕ) {io : σ} {io' : τ} (hio : R io io')
    (input : Stream' Statement) :
    DevicesAlike R (Device.session P order parser n io input).1
        (Device.session P' order parser n io' input).1 ∧
      (Device.session P order parser n io input).2 =
        (Device.session P' order parser n io' input).2 := by
  have hsim := drive_simulates (R := DevicesAlike R) (f := id) (n := n)
    (fun d d' hd => hd.up) (fun d d' st hd => hd.step h order parser st)
    (⟨hio, rfl, rfl⟩ : DevicesAlike R { io := io } { io := io' }) input
  rw [Stream'.map_id, Stream'.map_id] at hsim
  exact hsim

omit h in
/-- Programs on the way of devices that are alike are alike. -/
theorem Tracks.alike {s : Shell (World σ)} {d : Device σ} (hs : Tracks P order parser s d)
    {s' : Shell (World τ)} {d' : Device τ} (hs' : Tracks P' order parser s' d')
    (hd : DevicesAlike R d d') :
    R s.world.io s'.world.io ∧ s.console = s'.console ∧ s.term.running = s'.term.running := by
  refine ⟨?_, ?_, ?_⟩
  · rw [hs.world, hs'.world]
    exact hd.io
  · rw [hs.console, hs'.console, hd.outputs]
  · rw [hs.running, hs'.running, hd.up]

/-- On layers that answer alike the program prints the same on the console, stops at
the same line and leaves corresponding layers. -/
theorem programs_alike (name : Text) (n : ℕ) {io : σ} {io' : τ} (hio : R io io')
    (input : Stream' (Option Text)) :
    let s := (program P order parser name n io input).1
    let s' := (program P' order parser name n io' input).1
    R s.world.io s'.world.io ∧ s.console = s'.console ∧ s.term.running = s'.term.running := by
  intro s s'
  obtain ⟨ht, -⟩ := program_tracks P order parser name n io input
  obtain ⟨ht', -⟩ := program_tracks P' order parser name n io' input
  obtain ⟨hd, -⟩ := sessions_alike h order parser n hio (input.map Statement.ofLine)
  exact ht.alike order parser ht' hd

end Sessions

section Logged

variable (P : Platform σ F)

/-- A logged layer answers as the layer it wraps. -/
theorem logged_simulates : Simulates (fun s io => s.1 = io) P.logged P where
  zero := rfl
  stod := rfl
  toString := rfl
  toIoName := rfl
  readInt _ _ _ _ hio := hio ▸ ⟨rfl, rfl, fun _ => rfl⟩
  readDouble _ _ _ _ hio := hio ▸ ⟨rfl, rfl, fun _ => rfl⟩
  readString _ _ _ _ hio := hio ▸ ⟨rfl, rfl, fun _ => rfl⟩
  writeInt _ _ _ _ hio := hio ▸ ⟨rfl, rfl, fun _ => rfl⟩
  writeDouble _ _ _ _ hio := hio ▸ ⟨rfl, rfl, fun _ => rfl⟩
  writeString _ _ _ _ hio := hio ▸ ⟨rfl, rfl, fun _ => rfl⟩

end Logged

/-- A log of the calls does not show on the memory store. -/
theorem programs_alike_logged :
    let input : Stream' (Option Text) := [some (lit "set b 7"), some (lit "get a")] ++ₛ
      Stream'.const none
    (program memoryPlatform.logged (IterationOrder.latestFirst Text) aliasParser (lit "t") 2 (∅, [])
        input).1.console =
      (program memoryPlatform (IterationOrder.latestFirst Text) aliasParser (lit "t") 2 ∅
        input).1.console := by
  intro input
  have hio : (((∅, []) : KeyMap Key (Raw Int32) × List (IoCall Int32)).1) = ∅ := rfl
  exact (programs_alike (logged_simulates memoryPlatform) (IterationOrder.latestFirst Text)
    aliasParser (lit "t") 2 hio input).2.1

end IoEmulator.CtfIo
