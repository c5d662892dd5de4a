import Mathlib.Data.Nat.Digits.Defs
import Mathlib.Data.List.TakeWhile

/-!
# Text, lines, exceptions and number conversion

Every string of the program comes from or goes to a C interface: literals,
attribute values, `readline` buffers, `strdup`. A text is therefore a list of
bytes without the terminator, so that `c_str` and the constructor from
`const char *` lose nothing.

## Implementation notes

`std::isspace` is taken in the classic locale, which `std::istringstream` uses
because the program never changes the global locale. An `int` has 32 bits on the
supported platforms, so `std::stoi` returns an `Int32`.
-/

namespace IoEmulator

/-- A character of a C string, that is, any byte but the terminator. -/
abbrev CChar := {b : UInt8 // b ≠ 0}

abbrev Text := List CChar

/-- The text of a string literal, up to the terminator. -/
def lit (s : String) : Text :=
  s.toUTF8.data.toList.filterMap fun b => if h : b ≠ 0 then some ⟨b, h⟩ else none

/-- Whitespace of the classic locale: space and the five controls `\t` to `\r`. -/
def isspace (c : CChar) : Bool := c.1 = 32 || (9 ≤ c.1 && c.1 ≤ 13)

def isdigit (c : CChar) : Bool := 48 ≤ c.1 && c.1 ≤ 57

/-- The single character `' '`. -/
def space : CChar := ⟨32, by decide⟩

@[simp] theorem isspace_space : isspace space = true := rfl

theorem isspace_eq_false_of_all {s : Text} (h : s.all (fun c => !isspace c) = true) :
    ∀ c ∈ s, isspace c = false := fun c hc => by
  simpa using List.all_eq_true.mp h c hc

/-- What one statement writes to `std::cout` or `std::cerr`, up to the line break
that ends it. -/
inductive Line where
  | out (text : Text)
  | err (text : Text)
  deriving DecidableEq

def Line.text : Line → Text
  | .out text | .err text => text

/-- Exceptions with the text their `what()` returns; `unknown` is anything
thrown that is not a `std::exception`. -/
inductive Exn where
  | invalidArgument (what : Text)
  | outOfRange (what : Text)
  | runtimeError (what : Text)
  | filesystemError (what : Text)
  | parseError (what : Text)
  | unknown
  deriving DecidableEq

/-- The message a `catch (const std::exception &e)` clause can read. -/
def Exn.what : Exn → Option Text
  | .invalidArgument w | .outOfRange w | .runtimeError w | .filesystemError w | .parseError w =>
      some w
  | .unknown => none

/-- The number denoted by a string of decimal digits, most significant first. -/
def digitsValue (ds : Text) : Nat := ds.foldl (fun n d => 10 * n + (d.1.toNat - 48)) 0

/-- The optional sign of a numeral: whether it is negative, and what follows. -/
def splitSign : Text → Bool × Text
  | [] => (false, [])
  | c :: cs => if c.1 = 45 then (true, cs) else if c.1 = 43 then (false, cs) else (false, c :: cs)

/-- `std::stoi` in base ten: skip whitespace, take an optional sign and the
longest run of digits, and ignore whatever follows. -/
def stoi (s : Text) : Except Exn Int32 :=
  let (negative, body) := splitSign (s.dropWhile isspace)
  let digits := body.takeWhile isdigit
  let n : Int := if negative then -(digitsValue digits : Int) else digitsValue digits
  if digits = [] then .error (.invalidArgument (lit "stoi"))
  else if -2 ^ 31 ≤ n ∧ n < 2 ^ 31 then .ok (Int32.ofInt n)
  else .error (.outOfRange (lit "stoi"))

example : stoi (lit " -12.5") = .ok (-12) := by decide

/-- The sign and the digits of the numeral that `std::stoi` reads. -/
def leadingNumeral (s : Text) : Bool × Text :=
  ((splitSign (s.dropWhile isspace)).1, (splitSign (s.dropWhile isspace)).2.takeWhile isdigit)

/-- The number denoted by a sign and digits. -/
def signedValue (negative : Bool) (digits : Text) : Int :=
  if negative then -(digitsValue digits : Int) else digitsValue digits

/-- The values of an `int`. -/
def InIntRange (n : Int) : Prop := -2 ^ 31 ≤ n ∧ n < 2 ^ 31

instance (n : Int) : Decidable (InIntRange n) := inferInstanceAs (Decidable (_ ∧ _))

/-- The leading numeral decides everything: there is none, its value is out of
range, or its value is the result. -/
theorem stoi_eq (s : Text) : stoi s =
    if (leadingNumeral s).2 = [] then .error (.invalidArgument (lit "stoi"))
    else if InIntRange (signedValue (leadingNumeral s).1 (leadingNumeral s).2) then
      .ok (Int32.ofInt (signedValue (leadingNumeral s).1 (leadingNumeral s).2))
    else .error (.outOfRange (lit "stoi")) := rfl

theorem stoi_error {s : Text} {e : Exn} (h : stoi s = .error e) :
    e = .invalidArgument (lit "stoi") ∨ e = .outOfRange (lit "stoi") := by
  rw [stoi_eq] at h
  split at h
  · exact Or.inl (Except.error.inj h).symm
  · split at h
    · simp at h
    · exact Or.inr (Except.error.inj h).symm

/-- The character of a decimal digit. -/
def digitChar (d : Nat) : CChar :=
  ⟨UInt8.ofNat (48 + d % 10), by
    intro h
    have := congrArg UInt8.toNat h
    simp only [UInt8.toNat_ofNat', UInt8.toNat_zero] at this
    omega⟩

/-- `std::to_string` on a natural number. -/
def natToString (n : Nat) : Text :=
  if n = 0 then [digitChar 0] else (Nat.digits 10 n).reverse.map digitChar

/-- `std::to_string` on an `int`. -/
def intToString (n : Int32) : Text :=
  if n.toInt < 0 then lit "-" ++ natToString n.toInt.natAbs else natToString n.toInt.natAbs

example : intToString (-2147483648) = lit "-2147483648" := by decide

end IoEmulator
