import IoEmulator.CtfIo.Variant
import IoEmulator.Foundation.Enumeration

/-!
# The get, set and info commands

Each command checks its arguments against the configuration, builds a variant
and reads or writes it. What it prints is kept as reports, each of which is one
line on a standard stream.
-/

namespace IoEmulator.CtfIo

open Conf Foundation.FirstWinsMap Foundation.Enumeration

variable {σ F : Type}

/-- What the commands print. -/
inductive Report where
  | ioError (what : Text)
  | okRead (name pr value : Text)
  | failRead (name pr : Text)
  | emptyPw
  | okWrite (name prw value : Text)
  | failWrite (name prw value : Text)
  | info (item : Item)
  deriving DecidableEq

def Report.line : Report → Line
  | .ioError what => .err (lit "Error: " ++ what)
  | .okRead name pr value =>
      .out (lit "[OK][" ++ name ++ lit "][" ++ pr ++ lit "] read: " ++ value)
  | .failRead name pr =>
      .err (lit "[FAIL][" ++ name ++ lit "][" ++ pr ++
        lit "] could not be read, please might need to set a value first")
  | .emptyPw => .err (lit "Warning: the value 'pw' is empty, attempting to use 'pr' value ...")
  | .okWrite name prw value =>
      .out (lit "[OK][" ++ name ++ lit "][" ++ prw ++ lit "] write: " ++ value)
  | .failWrite name prw value =>
      .err (lit "[FAIL][" ++ name ++ lit "][" ++ prw ++ lit "] failed to write: " ++ value)
  | .info item => .out item.prettyPrint

/-- The line that the handler in `variant::read` and `variant::write` prints. -/
def IoAnswer.complaint {α : Type} (a : IoAnswer σ α) : List Report :=
  match a.result with
  | .ok _ => []
  | .error what => [.ioError what]

/-- The reports that say how a read or a write ended. -/
def Report.isVerdict : Report → Bool
  | .okRead .. | .failRead .. | .okWrite .. | .failWrite .. => true
  | _ => false

/-- What comes before the last report of a get or a set is never a verdict. -/
theorem verdict_mem_iff {α : Type} {a : IoAnswer σ α} {warning : List Report}
    (hwarning : warning = [] ∨ warning = [.emptyPw]) {r last : Report}
    (hr : r.isVerdict = true) : r ∈ warning ++ a.complaint ++ [last] ↔ r = last := by
  have hw : r ∉ warning := by
    rintro hmem
    rcases hwarning with rfl | rfl
    · simp at hmem
    · obtain rfl := List.mem_singleton.mp hmem
      simp [Report.isVerdict] at hr
  have hc : r ∉ a.complaint := by
    intro hmem
    unfold IoAnswer.complaint at hmem
    split at hmem
    · simp at hmem
    · obtain rfl := List.mem_singleton.mp hmem
      simp [Report.isVerdict] at hr
  simp [hw, hc]

/-- What a command did. -/
structure Performed (σ : Type) where
  io : σ
  printed : List Report
  outcome : Except Exn Unit

def invalidItem (name : Text) : Exn :=
  .invalidArgument (lit "invalid item of module \"" ++ name ++ lit "\"")

variable (P : Platform σ F)

/-- `perform_command_get`: arguments behind the first are ignored. -/
def performCommandGet (args : List Text) (parser : IoParser) (io : σ) : Performed σ :=
  match args with
  | [] => ⟨io, [], .error (.invalidArgument (lit "requires exactly one argument on command"))⟩
  | name :: _ =>
      match parser.findItem name with
      | none => ⟨io, [], .error (invalidItem name)⟩
      | some item =>
          if item.pr = [] then
            ⟨io, [], .error (.invalidArgument
              (lit "the 'pr' value for module \"" ++ name ++ lit "\" could not be empty"))⟩
          else
            match Variant.make P item.dt item.pr [] with
            | .error e => ⟨io, [], .error e⟩
            | .ok val =>
                let a := val.read P io
                if a.success then
                  ⟨a.io, a.complaint ++ [.okRead item.name item.pr (a.out.var.display P)], .ok ()⟩
                else ⟨a.io, a.complaint ++ [.failRead item.name item.pr], .ok ()⟩

/-- The value of `prw` in `perform_command_set`, the parameter a set writes to. -/
def prwOf (item : Item) : Text := if item.pw = [] then item.pr else item.pw

theorem prwOf_ne_nil {item : Item} (h : item.pw ≠ [] ∨ item.pr ≠ []) : prwOf item ≠ [] := by
  unfold prwOf
  split <;> simp_all

/-- `perform_command_set`: an empty `pw` falls back to `pr` with a warning. -/
def performCommandSet (args : List Text) (parser : IoParser) (io : σ) : Performed σ :=
  match args with
  | [name, value] =>
      match parser.findItem name with
      | none => ⟨io, [], .error (invalidItem name)⟩
      | some item =>
          let warning : List Report := if item.pw = [] then [.emptyPw] else []
          let prw := prwOf item
          if prw = [] then
            ⟨io, warning, .error (.runtimeError
              (lit "the value 'pr' is empty, attempt to use 'pr' value failed"))⟩
          else
            match Variant.make P item.dt prw value with
            | .error e => ⟨io, warning, .error e⟩
            | .ok val =>
                let a := val.write P io
                if a.success then
                  ⟨a.io, warning ++ a.complaint ++ [.okWrite item.name prw (val.var.display P)],
                    .ok ()⟩
                else ⟨a.io, warning ++ a.complaint ++ [.failWrite item.name prw value], .ok ()⟩
  | _ => ⟨io, [], .error (.invalidArgument (lit "requires exactly two arguments on command"))⟩

/-- `perform_command_info`: `all` prints every stored item. -/
def performCommandInfo (order : IterationOrder Text) (args : List Text) (parser : IoParser)
    (io : σ) : Performed σ :=
  match args with
  | [] => ⟨io, [], .error (.invalidArgument (lit "requires exactly one argument on command"))⟩
  | name :: _ =>
      if name = lit "all" then
        ⟨io, ((order.arrange (keySet parser.items)).filterMap parser.findItem).map .info, .ok ()⟩
      else
        match parser.findItem name with
        | some item => ⟨io, [.info item], .ok ()⟩
        | none => ⟨io, [], .error (invalidItem name)⟩

section Cases

variable (parser : IoParser)

/-- The arguments begin with an item of a known type that has a `pr`. -/
def Readable (args : List Text) (item : Item) : Prop :=
  ∃ name rest, args = name :: rest ∧ parser.findItem name = some item ∧ item.pr ≠ [] ∧
    ∃ kind, kindOf item.dt = some kind

/-- A get of a readable item reads a variant of the item's kind under the io name
of `pr` and reports on that. -/
theorem Readable.run {args : List Text} {item : Item} (h : Readable parser args item) (io : σ) :
    ∃ v : Variant F, kindOf item.dt = some v.var.kind ∧
      v.param = P.toIoName v.var.kind item.pr ∧
      performCommandGet P args parser io = ⟨(v.read P io).io,
        (v.read P io).complaint ++ [if (v.read P io).success then
          .okRead item.name item.pr ((v.read P io).out.var.display P)
        else .failRead item.name item.pr], .ok ()⟩ := by
  obtain ⟨name, rest, rfl, hfind, hpr, kind, hkind⟩ := h
  obtain ⟨raw, hraw, rfl⟩ := convert_nil P item.dt kind hkind
  refine ⟨⟨raw, P.toIoName raw.kind item.pr⟩, hkind, rfl, ?_⟩
  simp only [performCommandGet, hfind, if_neg hpr, make_eq P hpr, hraw, Except.map]
  split <;> rfl

/-- Any other get throws, always the same and without an effect. -/
theorem get_of_not_readable {args : List Text} (h : ∀ item, ¬ Readable parser args item) :
    ∃ e, ∀ io, performCommandGet P args parser io = ⟨io, [], .error e⟩ := by
  cases args with
  | nil => exact ⟨_, fun io => rfl⟩
  | cons name rest =>
      cases hfind : parser.findItem name with
      | none => exact ⟨invalidItem name, fun io => by simp only [performCommandGet, hfind]⟩
      | some item =>
          by_cases hpr : item.pr = []
          · exact ⟨_, fun io => by simp only [performCommandGet, hfind, if_pos hpr]; rfl⟩
          · cases hraw : convert P item.dt [] with
            | error e =>
                refine ⟨e, fun io => ?_⟩
                simp only [performCommandGet, hfind, if_neg hpr, make_eq P hpr, hraw, Except.map]
            | ok raw =>
                have hkind := kindOf_of_convert P hraw
                exact absurd ⟨name, rest, rfl, hfind, hpr, _, hkind⟩ (h item)

/-- An info leaves the IO layer alone and prints stored items only. -/
theorem info_spec (order : IterationOrder Text) (args : List Text) (io : σ) :
    (performCommandInfo order args parser io).io = io ∧
      ∀ r ∈ (performCommandInfo order args parser io).printed,
        ∃ n item, parser.findItem n = some item ∧ r = .info item := by
  cases args with
  | nil => exact ⟨rfl, fun r hr => absurd hr List.not_mem_nil⟩
  | cons name rest =>
      simp only [performCommandInfo]
      split
      · refine ⟨rfl, fun r hr => ?_⟩
        obtain ⟨item, hitem, rfl⟩ := List.mem_map.mp hr
        obtain ⟨n, -, hn⟩ := List.mem_filterMap.mp hitem
        exact ⟨n, item, hn, rfl⟩
      · cases hfind : parser.findItem name with
        | none => exact ⟨rfl, fun r hr => absurd hr List.not_mem_nil⟩
        | some item =>
            exact ⟨rfl, fun r hr => ⟨name, item, hfind, List.mem_singleton.mp hr⟩⟩

/-- What a set prints before it converts its value. -/
def pwWarning (item : Item) : List Report := if item.pw = [] then [.emptyPw] else []

theorem pwWarning_cases (item : Item) :
    pwWarning item = [] ∨ pwWarning item = [.emptyPw] := by
  by_cases hpw : item.pw = [] <;> simp [pwWarning, hpw]

/-- A set whose value converts writes a variant of the converted value under the io
name of `pw`, or of `pr` when `pw` is empty, and reports on that. -/
theorem set_of_convert {name value : Text} {item : Item} {raw : Raw F}
    (hfind : parser.findItem name = some item) (hprw : prwOf item ≠ [])
    (hconv : convert P item.dt value = .ok raw) (io : σ) :
    let a := Variant.write P ⟨raw, P.toIoName raw.kind (prwOf item)⟩ io
    performCommandSet P [name, value] parser io = ⟨a.io, pwWarning item ++ a.complaint ++
      [if a.success then .okWrite item.name (prwOf item) (raw.display P)
      else .failWrite item.name (prwOf item) value], .ok ()⟩ := by
  simp only [performCommandSet, hfind, if_neg hprw, make_eq P hprw, hconv, Except.map]
  split <;> rfl

/-- A set whose value does not convert throws before any call. -/
theorem set_of_convert_error {name value : Text} {item : Item} {e : Exn}
    (hfind : parser.findItem name = some item) (hprw : prwOf item ≠ [])
    (hconv : convert P item.dt value = .error e) (io : σ) :
    performCommandSet P [name, value] parser io = ⟨io, pwWarning item, .error e⟩ := by
  simp only [performCommandSet, hfind, if_neg hprw, make_eq P hprw, hconv, Except.map]
  rfl

/-- Everything a set can do. It throws without touching the IO layer, printing at
most the warning; or it writes the converted value and reports on that. -/
theorem set_cases (args : List Text) (io : σ) :
    (∃ e printed, performCommandSet P args parser io = ⟨io, printed, .error e⟩ ∧
      (printed = [] ∨ printed = [.emptyPw])) ∨
    ∃ name value item raw, ∃ warning : List Report, args = [name, value] ∧
      parser.findItem name = some item ∧ convert P item.dt value = .ok raw ∧
      (warning = [] ∨ warning = [.emptyPw]) ∧
      let a := Variant.write P ⟨raw, P.toIoName raw.kind (prwOf item)⟩ io
      performCommandSet P args parser io = ⟨a.io, warning ++ a.complaint ++
        [if a.success then .okWrite item.name (prwOf item) (raw.display P)
        else .failWrite item.name (prwOf item) value], .ok ()⟩ := by
  match args with
  | [] => exact Or.inl ⟨_, [], rfl, Or.inl rfl⟩
  | [_] => exact Or.inl ⟨_, [], rfl, Or.inl rfl⟩
  | _ :: _ :: _ :: _ => exact Or.inl ⟨_, [], rfl, Or.inl rfl⟩
  | [name, value] =>
      cases hfind : parser.findItem name with
      | none =>
          left
          exact ⟨invalidItem name, [], by simp only [performCommandSet, hfind], Or.inl rfl⟩
      | some item =>
          by_cases hprw : prwOf item = []
          · left
            refine ⟨.runtimeError (lit "the value 'pr' is empty, attempt to use 'pr' value failed"),
              pwWarning item, ?_, pwWarning_cases item⟩
            simp only [performCommandSet, hfind, if_pos hprw]
            rfl
          · cases hconv : convert P item.dt value with
            | error e =>
                left
                exact ⟨e, _, set_of_convert_error P parser hfind hprw hconv io,
                  pwWarning_cases item⟩
            | ok raw =>
                right
                exact ⟨name, value, item, raw, _, rfl, hfind, hconv, pwWarning_cases item,
                  set_of_convert P parser hfind hprw hconv io⟩

end Cases

end IoEmulator.CtfIo
