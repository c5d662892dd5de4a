import IoEmulator.Conf.IoParser

/-!
# Typed values and their io names

A variant holds an `int`, a `double` or a string together with the io name it is
read and written under. Conversion from text, the derivation of the name and the
dispatch to the six functions of the IO layer.

## Implementation notes

The IO layer, `lb::drv_emulator` and the arithmetic of `double` are parameters.
A function of the layer gets the state of the layer and answers with a new one,
the value left in its out-parameter and its result. It throws nothing but
`std::exception`, since anything else ends the program in a `noexcept` function.
-/

namespace IoEmulator.CtfIo

open Conf Foundation.FirstWinsMap

variable {σ F : Type}

/-- The alternatives of `variant::raw_type`. -/
inductive Kind where
  | int
  | double
  | string
  deriving DecidableEq

/-- `variant::raw_type`, for doubles in `F`. -/
inductive Raw (F : Type) where
  | int (n : Int32)
  | double (x : F)
  | string (s : Text)
  deriving DecidableEq

def Raw.kind : Raw F → Kind
  | .int _ => .int
  | .double _ => .double
  | .string _ => .string

/-- What a call of the IO layer leaves behind. The result compares the returned
code with `IO_SUCCESS`, or is the text of a thrown exception. -/
structure IoAnswer (σ α : Type) where
  io : σ
  out : α
  result : Except Text Bool

def IoAnswer.map {α β : Type} (f : α → β) (a : IoAnswer σ α) : IoAnswer σ β :=
  ⟨a.io, f a.out, a.result⟩

/-- What `variant::read` and `variant::write` return. -/
def IoAnswer.success {α : Type} (a : IoAnswer σ α) : Bool :=
  match a.result with
  | .ok b => b
  | .error _ => false

/-- Everything outside the repository that a variant uses. -/
structure Platform (σ F : Type) where
  zero : F
  stod : Text → Except Exn F
  toString : F → Text
  toIoName : Kind → Text → Text
  ioReadInt : Text → Int32 → σ → IoAnswer σ Int32
  ioReadDouble : Text → F → σ → IoAnswer σ F
  ioReadString : Text → Text → σ → IoAnswer σ Text
  ioWriteInt : Text → Int32 → σ → IoAnswer σ Unit
  ioWriteDouble : Text → F → σ → IoAnswer σ Unit
  ioWriteString : Text → Text → σ → IoAnswer σ Unit

/-- `variant`. -/
structure Variant (F : Type) where
  var : Raw F
  param : Text

/-- The conversion in `set_value_from_str`. -/
def convert (P : Platform σ F) (type : DataType) (val : Text) : Except Exn (Raw F) :=
  match type with
  | .intVal => (if val = [] then .ok 0 else stoi val).map Raw.int
  | .doubleVal => (if val = [] then .ok P.zero else P.stod val).map Raw.double
  | .stringVal => .ok (.string val)
  | .unknown => .error (.invalidArgument (lit "unsupported type for variant"))

namespace Variant

/-- `set`: the value is replaced, whatever its kind, and the name stays. -/
def set (raw : Raw F) (v : Variant F) : Variant F := { v with var := raw }

/-- `operator=` from an `int`, a `double` or a string. -/
def assign (raw : Raw F) (v : Variant F) : Variant F := v.set raw

variable (P : Platform σ F)

/-- `set_value_from_str`: a conversion that throws leaves the variant alone. -/
def setValueFromStr (type : DataType) (val : Text) (v : Variant F) : Except Exn (Variant F) :=
  (convert P type val).map fun raw => { v with var := raw }

/-- `reset`: the name is derived for the kind the variant holds now, and only
from a nonempty parameter. -/
def reset (type : DataType) (param val : Text) (v : Variant F) : Except Exn (Variant F) :=
  (v.setValueFromStr P type val).map fun v =>
    if param = [] then v else { v with param := P.toIoName v.var.kind param }

/-- The constructor: `reset` on an `int` zero without a name. -/
def make (type : DataType) (param val : Text) : Except Exn (Variant F) :=
  reset P type param val ⟨.int 0, []⟩

/-- `read`. -/
def read (v : Variant F) (io : σ) : IoAnswer σ (Variant F) :=
  match v.var with
  | .int n => (P.ioReadInt v.param n io).map fun n => { v with var := .int n }
  | .double x => (P.ioReadDouble v.param x io).map fun x => { v with var := .double x }
  | .string s => (P.ioReadString v.param s io).map fun s => { v with var := .string s }

/-- `write`. -/
def write (v : Variant F) (io : σ) : IoAnswer σ Unit :=
  match v.var with
  | .int n => P.ioWriteInt v.param n io
  | .double x => P.ioWriteDouble v.param x io
  | .string s => P.ioWriteString v.param s io

/-- Reading changes neither the kind nor the name. -/
theorem read_same (v : Variant F) (io : σ) :
    (v.read P io).out.var.kind = v.var.kind ∧ (v.read P io).out.param = v.param := by
  obtain ⟨raw, param⟩ := v
  cases raw <;> exact ⟨rfl, rfl⟩

end Variant

/-- What `operator<<` writes for the value of a variant. -/
def Raw.display (P : Platform σ F) : Raw F → Text
  | .int n => intToString n
  | .double x => P.toString x
  | .string s => s

section Construction

variable (P : Platform σ F)

/-- The kind of a value of a data type. -/
def kindOf : DataType → Option Kind
  | .intVal => some .int
  | .doubleVal => some .double
  | .stringVal => some .string
  | .unknown => none

/-- Conversion fixes the kind, and nothing converts to an unknown type. -/
theorem kindOf_of_convert {type : DataType} {val : Text} {raw : Raw F}
    (h : convert P type val = .ok raw) : kindOf type = some raw.kind := by
  cases type with
  | unknown => simp [convert] at h
  | stringVal =>
      obtain rfl := Except.ok.inj h
      rfl
  | intVal =>
      obtain ⟨n, -, rfl⟩ := map_eq_ok_iff.mp h
      rfl
  | doubleVal =>
      obtain ⟨x, -, rfl⟩ := map_eq_ok_iff.mp h
      rfl

/-- A variant constructed with a parameter holds the converted value and the io
name derived for its kind. -/
theorem make_eq {type : DataType} {param val : Text} (hparam : param ≠ []) :
    Variant.make P type param val =
      (convert P type val).map fun raw => ⟨raw, P.toIoName raw.kind param⟩ := by
  unfold Variant.make Variant.reset Variant.setValueFromStr
  cases convert P type val with
  | error e => rfl
  | ok raw => simp [Except.map, hparam]

/-- The empty text converts to a default value of every known type. -/
theorem convert_nil (type : DataType) (kind : Kind) (h : kindOf type = some kind) :
    ∃ raw, convert P type [] = .ok raw ∧ raw.kind = kind := by
  cases type <;> simp_all [kindOf, convert, Except.map, Raw.kind]

end Construction

end IoEmulator.CtfIo
