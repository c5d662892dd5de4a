import IoEmulator.CtfIo.Perform

/-!
# The calls that reach the IO layer

A logged layer answers as the layer it wraps and keeps a list of the calls made.
A command on a logged layer prints, ends and leaves the wrapped layer as without
the log, so the log is the list of calls the command makes.
-/

namespace IoEmulator.CtfIo

open Conf Foundation.Enumeration

variable {σ F : Type}

/-- A call of one of the six functions, with the io name and the value written. -/
inductive IoCall (F : Type) where
  | readInt (name : Text)
  | readDouble (name : Text)
  | readString (name : Text)
  | writeInt (name : Text) (n : Int32)
  | writeDouble (name : Text) (x : F)
  | writeString (name : Text) (s : Text)
  deriving DecidableEq

/-- The kind of value that a call reads or writes. -/
def IoCall.kind : IoCall F → Kind
  | .readInt _ | .writeInt _ _ => .int
  | .readDouble _ | .writeDouble _ _ => .double
  | .readString _ | .writeString _ _ => .string

/-- The io name that a call is given. -/
def IoCall.name : IoCall F → Text
  | .readInt name | .readDouble name | .readString name => name
  | .writeInt name _ | .writeDouble name _ | .writeString name _ => name

/-- An answer of the wrapped layer, with the call entered into the log. -/
def IoAnswer.logged {α : Type} (call : IoCall F) (log : List (IoCall F)) (a : IoAnswer σ α) :
    IoAnswer (σ × List (IoCall F)) α := ⟨(a.io, log ++ [call]), a.out, a.result⟩

/-- The layer that answers as `P` and logs every call. -/
def Platform.logged (P : Platform σ F) : Platform (σ × List (IoCall F)) F where
  zero := P.zero
  stod := P.stod
  toString := P.toString
  toIoName := P.toIoName
  ioReadInt name old s := (P.ioReadInt name old s.1).logged (.readInt name) s.2
  ioReadDouble name old s := (P.ioReadDouble name old s.1).logged (.readDouble name) s.2
  ioReadString name old s := (P.ioReadString name old s.1).logged (.readString name) s.2
  ioWriteInt name n s := (P.ioWriteInt name n s.1).logged (.writeInt name n) s.2
  ioWriteDouble name x s := (P.ioWriteDouble name x s.1).logged (.writeDouble name x) s.2
  ioWriteString name v s := (P.ioWriteString name v s.1).logged (.writeString name v) s.2

namespace Variant

/-- The call that reads a variant. -/
def readCall (v : Variant F) : IoCall F :=
  match v.var with
  | .int _ => .readInt v.param
  | .double _ => .readDouble v.param
  | .string _ => .readString v.param

/-- The call that writes a variant. -/
def writeCall (v : Variant F) : IoCall F :=
  match v.var with
  | .int n => .writeInt v.param n
  | .double x => .writeDouble v.param x
  | .string s => .writeString v.param s

theorem readCall_spec (v : Variant F) :
    v.readCall.kind = v.var.kind ∧ v.readCall.name = v.param := by
  obtain ⟨raw, param⟩ := v
  cases raw <;> exact ⟨rfl, rfl⟩

theorem writeCall_spec (v : Variant F) :
    v.writeCall.kind = v.var.kind ∧ v.writeCall.name = v.param := by
  obtain ⟨raw, param⟩ := v
  cases raw <;> exact ⟨rfl, rfl⟩

variable (P : Platform σ F)

/-- Reading makes one call. -/
theorem read_logged (v : Variant F) (s : σ × List (IoCall F)) :
    v.read P.logged s = (v.read P s.1).logged v.readCall s.2 := by
  obtain ⟨raw, param⟩ := v
  cases raw <;> rfl

/-- Writing makes one call. -/
theorem write_logged (v : Variant F) (s : σ × List (IoCall F)) :
    v.write P.logged s = (v.write P s.1).logged v.writeCall s.2 := by
  obtain ⟨raw, param⟩ := v
  cases raw <;> rfl

/-- Construction calls nothing. -/
theorem make_logged (type : DataType) (param val : Text) :
    make P.logged type param val = make P type param val := rfl

end Variant

@[simp] theorem IoAnswer.success_logged {α : Type} (call : IoCall F) (log : List (IoCall F))
    (a : IoAnswer σ α) : (a.logged call log).success = a.success := rfl

section Commands

variable (P : Platform σ F) (parser : IoParser)

/-- Forget the log. -/
def Performed.forget (r : Performed (σ × List (IoCall F))) : Performed σ :=
  ⟨r.io.1, r.printed, r.outcome⟩

/-- The log does not interfere with a get. -/
theorem performCommandGet_logged (args : List Text) (s : σ × List (IoCall F)) :
    (performCommandGet P.logged args parser s).forget = performCommandGet P args parser s.1 := by
  cases args with
  | nil => rfl
  | cons name rest =>
      cases hfind : parser.findItem name with
      | none =>
          simp only [performCommandGet, hfind]
          rfl
      | some item =>
          by_cases hpr : item.pr = []
          · simp only [performCommandGet, hfind, if_pos hpr]
            rfl
          · simp only [performCommandGet, hfind, if_neg hpr, Variant.make_logged]
            cases Variant.make P item.dt item.pr [] with
            | error e => rfl
            | ok val =>
                simp only [Variant.read_logged, IoAnswer.success_logged]
                by_cases hok : (val.read P s.1).success = true
                · simp only [if_pos hok]
                  rfl
                · simp only [if_neg hok]
                  rfl

/-- The log does not interfere with a set. -/
theorem performCommandSet_logged (args : List Text) (s : σ × List (IoCall F)) :
    (performCommandSet P.logged args parser s).forget = performCommandSet P args parser s.1 := by
  match args with
  | [] => rfl
  | [_] => rfl
  | _ :: _ :: _ :: _ => rfl
  | [name, value] =>
      cases hfind : parser.findItem name with
      | none =>
          simp only [performCommandSet, hfind]
          rfl
      | some item =>
          by_cases hprw : prwOf item = []
          · simp only [performCommandSet, hfind, if_pos hprw]
            rfl
          · simp only [performCommandSet, hfind, if_neg hprw, Variant.make_logged]
            cases Variant.make P item.dt (prwOf item) value with
            | error e => rfl
            | ok val =>
                simp only [Variant.write_logged, IoAnswer.success_logged]
                by_cases hok : (val.write P s.1).success = true
                · simp only [if_pos hok]
                  rfl
                · simp only [if_neg hok]
                  rfl

/-- The calls that a set makes. -/
def setCalls (args : List Text) (io : σ) : List (IoCall F) :=
  (performCommandSet P.logged args parser (io, [])).io.2

/-- A set whose value converts makes one call, which writes the converted value. -/
theorem setCalls_of_convert {name value : Text} {item : Item} {raw : Raw F}
    (hfind : parser.findItem name = some item) (hprw : prwOf item ≠ [])
    (hconv : convert P item.dt value = .ok raw) (io : σ) :
    setCalls P parser [name, value] io =
      [Variant.writeCall ⟨raw, P.toIoName raw.kind (prwOf item)⟩] := by
  have hlogged : convert P.logged item.dt value = .ok raw := hconv
  rw [setCalls, set_of_convert P.logged parser hfind hprw hlogged]
  simp only [Variant.write_logged, IoAnswer.logged, List.nil_append]
  rfl

/-- A set whose value does not convert calls nothing. -/
theorem setCalls_of_convert_error {name value : Text} {item : Item} {e : Exn}
    (hfind : parser.findItem name = some item) (hprw : prwOf item ≠ [])
    (hconv : convert P item.dt value = .error e) (io : σ) :
    setCalls P parser [name, value] io = [] := by
  have hlogged : convert P.logged item.dt value = .error e := hconv
  rw [setCalls, set_of_convert_error P.logged parser hfind hprw hlogged]

end Commands

end IoEmulator.CtfIo
