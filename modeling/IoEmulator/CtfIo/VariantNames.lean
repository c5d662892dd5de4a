import IoEmulator.CtfIo.IoCalls
import IoEmulator.CtfIo.StoreSemantics
import IoEmulator.Foundation.StepRuns

/-!
# The kind of a variant and its io name

Several operations replace the value of a variant, and with it possibly the kind,
while only a reset with a parameter derives the name anew. The name stays that of
the kind held exactly as long as no other operation changes the kind.

## Implementation notes

`lastParam` is kept for the statements only. Whether the parameter of a reset that
throws counts as given is left open by `counts`.
-/

namespace IoEmulator.CtfIo

open Conf Foundation.FirstWinsMap Foundation.StepRuns

variable {σ F : Type}

/-- A call of a public operation of a variant. -/
inductive VariantCall (F : Type) where
  | reset (type : DataType) (param val : Text)
  | set (raw : Raw F)
  | assign (raw : Raw F)
  | setValueFromStr (type : DataType) (val : Text)
  | read
  | write

/-- A variant over the IO layer, with the last nonempty parameter it was given. -/
structure Held (σ F : Type) where
  variant : Variant F
  io : σ
  lastParam : Text

namespace Held

variable (P : Platform σ F) (counts : Bool)

/-- What an operation leaves: a call that throws changes nothing. -/
def afterCall (v : Variant F) (r : Except Exn (Variant F)) : Variant F :=
  match r with
  | .ok v' => v'
  | .error _ => v

/-- One call, returning or throwing. -/
def step (s : Held σ F) : VariantCall F → Held σ F
  | .reset type param val =>
      let r := s.variant.reset P type param val
      { s with
        variant := afterCall s.variant r
        lastParam := if param ≠ [] ∧ (counts || r.isOk) then param else s.lastParam }
  | .set raw => { s with variant := s.variant.set raw }
  | .assign raw => { s with variant := s.variant.assign raw }
  | .setValueFromStr type val =>
      { s with variant := afterCall s.variant (s.variant.setValueFromStr P type val) }
  | .read =>
      let a := s.variant.read P s.io
      { s with variant := a.out, io := a.io }
  | .write => { s with io := (s.variant.write P s.io).io }

/-- The name is the one derived for the kind held from the last parameter, so that
the next read and the next write name what they access as values of that kind. -/
structure NamedForKind (s : Held σ F) : Prop where
  name : s.variant.param = P.toIoName s.variant.var.kind s.lastParam
  read : s.variant.readCall.name = P.toIoName s.variant.readCall.kind s.lastParam
  write : s.variant.writeCall.name = P.toIoName s.variant.writeCall.kind s.lastParam

theorem namedForKind_iff (s : Held σ F) :
    s.NamedForKind P ↔ s.variant.param = P.toIoName s.variant.var.kind s.lastParam := by
  obtain ⟨hreadKind, hreadName⟩ := s.variant.readCall_spec
  obtain ⟨hwriteKind, hwriteName⟩ := s.variant.writeCall_spec
  constructor
  · exact fun h => h.name
  · intro h
    constructor
    · exact h
    · rw [hreadKind, hreadName]
      exact h
    · rw [hwriteKind, hwriteName]
      exact h

/-- The last parameter has one name for the kind held and for another kind. -/
def SameName (s : Held σ F) (kind : Kind) : Prop :=
  P.toIoName kind s.lastParam = P.toIoName s.variant.var.kind s.lastParam

/-- The text converts only to values of a kind with the same name. -/
def ConvertsToSameName (s : Held σ F) (type : DataType) (val : Text) : Prop :=
  ∀ raw, convert P type val = .ok raw → s.SameName P raw.kind

/-- The call is a reset that derives the name anew, or needs no new name. -/
def KeepsName (s : Held σ F) : VariantCall F → Prop
  | .reset type param val =>
      if param = [] then s.ConvertsToSameName P type val
      else (convert P type val).isOk = false → counts = true →
        P.toIoName s.variant.var.kind param = P.toIoName s.variant.var.kind s.lastParam
  | .set raw => s.SameName P raw.kind
  | .assign raw => s.SameName P raw.kind
  | .setValueFromStr type val => s.ConvertsToSameName P type val
  | .read => True
  | .write => True

/-- A text that does not convert asks for nothing. -/
theorem convertsToSameName_of_error (s : Held σ F) {type : DataType} {val : Text} {e : Exn}
    (h : convert P type val = .error e) : s.ConvertsToSameName P type val := by
  intro raw hraw
  rw [h] at hraw
  cases hraw

theorem convertsToSameName_iff (s : Held σ F) {type : DataType} {val : Text} {raw : Raw F}
    (h : convert P type val = .ok raw) :
    s.ConvertsToSameName P type val ↔ s.SameName P raw.kind := by
  constructor
  · intro hall
    exact hall raw h
  · intro hsame raw' hraw'
    obtain rfl := Except.ok.inj (h.symm.trans hraw')
    exact hsame

section Step

variable {P} {s : Held σ F} (hname : s.NamedForKind P)

include hname

/-- A value put in place of the one held leaves the right name exactly when its
kind has the same one. -/
theorem namedForKind_set_iff (raw : Raw F) :
    { s with variant := s.variant.set raw }.NamedForKind P ↔ s.SameName P raw.kind := by
  rw [namedForKind_iff] at hname ⊢
  rw [SameName, ← hname]
  exact eq_comm

/-- The same for a value that has to be converted first. -/
theorem namedForKind_setValueFromStr_iff (type : DataType) (val : Text) :
    (s.step P counts (.setValueFromStr type val)).NamedForKind P ↔
      s.ConvertsToSameName P type val := by
  cases hconv : convert P type val with
  | error e =>
      have hstep : s.step P counts (.setValueFromStr type val) = s := by
        simp only [step, Variant.setValueFromStr, hconv]
        rfl
      rw [hstep]
      exact iff_of_true hname (s.convertsToSameName_of_error P hconv)
  | ok raw =>
      have hstep : s.step P counts (.setValueFromStr type val) =
          { s with variant := s.variant.set raw } := by
        simp only [step, Variant.setValueFromStr, hconv]
        rfl
      rw [hstep, s.convertsToSameName_iff P hconv]
      exact namedForKind_set_iff hname raw

/-- A reset without a parameter does no more. -/
theorem namedForKind_reset_nil_iff (type : DataType) (val : Text) :
    (s.step P counts (.reset type [] val)).NamedForKind P ↔ s.ConvertsToSameName P type val := by
  have hstep : s.step P counts (.reset type [] val) =
      s.step P counts (.setValueFromStr type val) := by
    simp only [step, Variant.reset, Variant.setValueFromStr]
    cases convert P type val <;> simp [Except.map, afterCall]
  rw [hstep]
  exact namedForKind_setValueFromStr_iff counts hname type val

/-- A reset with a parameter derives the name for the kind it converts to, and
changes no name when it throws. -/
theorem namedForKind_reset_iff (type : DataType) {param : Text} (hparam : param ≠ [])
    (val : Text) :
    (s.step P counts (.reset type param val)).NamedForKind P ↔
      ((convert P type val).isOk = false → counts = true →
        P.toIoName s.variant.var.kind param = P.toIoName s.variant.var.kind s.lastParam) := by
  rw [namedForKind_iff] at hname ⊢
  cases hconv : convert P type val with
  | error e =>
      have hstep : s.step P counts (.reset type param val) =
          { s with lastParam := if counts = true then param else s.lastParam } := by
        simp [step, Variant.reset, Variant.setValueFromStr, hconv, Except.map, afterCall,
          Except.isOk, Except.toBool, hparam]
      rw [hstep]
      by_cases hcounts : counts = true
      · simp only [Except.isOk, Except.toBool, hcounts, forall_const]
        rw [hname]
        exact eq_comm
      · simp only [if_neg hcounts]
        exact iff_of_true hname fun _ h => absurd h hcounts
  | ok raw =>
      have hstep : s.step P counts (.reset type param val) =
          { s with variant := ⟨raw, P.toIoName raw.kind param⟩, lastParam := param } := by
        simp [step, Variant.reset, Variant.setValueFromStr, hconv, Except.map, afterCall,
          Except.isOk, Except.toBool, hparam]
      rw [hstep]
      refine iff_of_true rfl fun h => ?_
      cases h

/-- From a state with the right name every call leads to one exactly when it keeps
the name. -/
theorem namedForKind_step_iff (call : VariantCall F) :
    (s.step P counts call).NamedForKind P ↔ s.KeepsName P counts call := by
  cases call with
  | reset type param val =>
      by_cases hparam : param = []
      · subst hparam
        simp only [KeepsName, if_pos]
        exact namedForKind_reset_nil_iff counts hname type val
      · simp only [KeepsName, if_neg hparam]
        exact namedForKind_reset_iff counts hname type hparam val
  | set raw => exact namedForKind_set_iff hname raw
  | assign raw => exact namedForKind_set_iff hname raw
  | setValueFromStr type val => exact namedForKind_setValueFromStr_iff counts hname type val
  | read =>
      obtain ⟨hkind, hparam⟩ := s.variant.read_same P s.io
      refine iff_of_true ?_ trivial
      rw [namedForKind_iff] at hname ⊢
      simp only [step, hkind, hparam]
      exact hname
  | write =>
      refine iff_of_true ?_ trivial
      rw [namedForKind_iff] at hname ⊢
      exact hname

end Step

/-- A variant that has just been constructed has the right name. -/
theorem namedForKind_make {type : DataType} {param val : Text} {v : Variant F}
    (hparam : param ≠ []) (hmake : Variant.make P type param val = .ok v) (io : σ) :
    NamedForKind P (⟨v, io, param⟩ : Held σ F) := by
  rw [namedForKind_iff]
  rw [make_eq P hparam] at hmake
  obtain ⟨raw, -, rfl⟩ := map_eq_ok_iff.mp hmake
  rfl

/-- Over every run of calls on a constructed variant, returning or throwing: the
name is right after every call exactly when every call keeps it. -/
theorem namedForKind_throughout_iff {type : DataType} {param val : Text} {v : Variant F}
    (hparam : param ≠ []) (hmake : Variant.make P type param val = .ok v) (io : σ)
    (calls : List (VariantCall F)) :
    (∀ before after, calls = before ++ after →
      (before.foldl (step P counts) ⟨v, io, param⟩).NamedForKind P) ↔
    AllSteps (step P counts) (KeepsName P counts) ⟨v, io, param⟩ calls := by
  apply throughout_iff_allSteps (J := fun _ => True)
  · exact fun s call h => h
  · exact fun s call _ hname => namedForKind_step_iff counts hname call
  · trivial
  · exact namedForKind_make P hparam hmake io

section Sample

/-- The store in memory with io names that tell the kinds apart. -/
def typedPlatform : Platform (KeyMap Key (Raw Int32)) Int32 :=
  { memoryPlatform with
    toIoName := fun kind param =>
      match kind with
      | .int => lit "i." ++ param
      | .double => lit "d." ++ param
      | .string => lit "s." ++ param }

/-- Resetting to another kind with a parameter, reading, assigning a value of that
kind and writing keep the name right. -/
theorem namedForKind_throughout_reset :
    ([.reset .doubleVal (lit "q") (lit "7"), .read, .assign (.double 2), .write].foldl
      (step typedPlatform true) ⟨⟨.int 5, lit "i.p"⟩, ∅, lit "p"⟩).NamedForKind
        typedPlatform := by
  apply (namedForKind_throughout_iff typedPlatform true (by decide)
    (rfl : Variant.make typedPlatform .intVal (lit "p") (lit "5") = .ok ⟨.int 5, lit "i.p"⟩) ∅
    _).mpr ?_ _ [] (List.append_nil _).symm
  refine allSteps_cons.mpr ⟨?_, allSteps_cons.mpr ⟨trivial, allSteps_cons.mpr ⟨rfl,
    allSteps_cons.mpr ⟨trivial, allSteps_nil _⟩⟩⟩⟩
  rw [KeepsName, if_neg (by decide)]
  intro herror
  cases herror

/-- Assigning a double to a variant constructed as an `int` leaves the name of the
`int`, under which the next write writes a double. -/
theorem assign_not_namedForKind :
    Variant.make typedPlatform .intVal (lit "p") (lit "5") = .ok ⟨.int 5, lit "i.p"⟩ ∧
    ¬ ([.assign (.double 2)].foldl (step typedPlatform true)
      ⟨⟨.int 5, lit "i.p"⟩, ∅, lit "p"⟩).NamedForKind typedPlatform ∧
    ([.assign (.double 2)].foldl (step typedPlatform true)
      ⟨⟨.int 5, lit "i.p"⟩, ∅, lit "p"⟩).variant.writeCall = .writeDouble (lit "i.p") 2 := by
  refine ⟨rfl, ?_, rfl⟩
  intro h
  have hname : lit "i.p" = lit "d." ++ lit "p" := h.name
  exact absurd hname (by decide)

end Sample

end Held

end IoEmulator.CtfIo
