import IoEmulator.CtfIo.Variant
import IoEmulator.Numerals

/-!
# Doubles as exact fractions

`std::stod` and `std::to_string` on doubles that are taken as the numbers they
stand for, and what is read back from what is written.

## Implementation notes

A numeral converts to its exact value, so there is neither overflow nor underflow.
The texts of infinities and of NaN denote no number and are left out. The rounding
of `std::to_string` is to nearest, with any rule for ties.
-/

namespace IoEmulator.CtfIo

open Foundation.FixedPoint

variable {σ : Type}

section Conversion

def isxdigit (c : CChar) : Bool :=
  isdigit c || (97 ≤ c.1 && c.1 ≤ 102) || (65 ≤ c.1 && c.1 ≤ 70)

/-- The hexadecimal digit that a character stands for. -/
def xdigitOf (c : CChar) : ℕ :=
  if isdigit c then digitOf c else if 97 ≤ c.1 then c.1.toNat - 87 else c.1.toNat - 55

/-- The single character `'.'`. -/
def point : CChar := ⟨46, by decide⟩

/-- The digits in front of and behind an optional point, and what follows them. -/
def significand (isDigit : CChar → Bool) (s : Text) : Text × Text × Text :=
  match s.dropWhile isDigit with
  | [] => (s.takeWhile isDigit, [], [])
  | c :: cs =>
      if c = point then (s.takeWhile isDigit, cs.takeWhile isDigit, cs.dropWhile isDigit)
      else (s.takeWhile isDigit, [], c :: cs)

/-- The value of an optional exponent behind one of two letters. -/
def exponent (lower upper : UInt8) : Text → Int
  | [] => 0
  | c :: cs =>
      if c.1 = lower ∨ c.1 = upper then
        signedValue (splitSign cs).1 ((splitSign cs).2.takeWhile isdigit)
      else 0

/-- The longest decimal numeral at the beginning of a text. -/
def scanDecimal (s : Text) : Option ℚ :=
  let number := significand isdigit s
  let digits := number.1 ++ number.2.1
  if digits = [] then none
  else some (positional 10 (digits.map digitOf) / 10 ^ number.2.1.length *
    10 ^ exponent 101 69 number.2.2)

/-- The same in hexadecimal, with a binary exponent. -/
def scanHexadecimal (s : Text) : Option ℚ :=
  let number := significand isxdigit s
  let digits := number.1 ++ number.2.1
  if digits = [] then none
  else some (positional 16 (digits.map xdigitOf) / 16 ^ number.2.1.length *
    2 ^ exponent 112 80 number.2.2)

/-- What follows `0x`. -/
def hexBody : Text → Option Text
  | zero :: x :: rest => if zero.1 = 48 ∧ (x.1 = 120 ∨ x.1 = 88) then some rest else none
  | _ => none

/-- `std::stod`: skip whitespace, take an optional sign and the longest numeral, and
ignore whatever follows. -/
def stod (s : Text) : Except Exn ℚ :=
  let signed := splitSign (s.dropWhile isspace)
  match ((hexBody signed.2).bind scanHexadecimal).or (scanDecimal signed.2) with
  | none => .error (.invalidArgument (lit "stod"))
  | some x => .ok (if signed.1 then -x else x)

example : stod (lit " -1.25e1 V") = .ok (-25 / 2) := by decide +kernel

example : stod (lit "0x1.8p-1") = .ok (3 / 4) := by decide +kernel

/-- `std::to_string` on a double: fixed notation with six digits behind the point. -/
def fixedToString (rnd : Nearest ℚ) (x : ℚ) : Text :=
  let m := (rnd.round (|x| * 10 ^ 6)).toNat
  (if x < 0 then lit "-" else []) ++
    (natToString (m / 10 ^ 6) ++ point :: (lastDigits 10 6 m).map digitChar)

example : fixedToString .halfEven (-1 / 10 ^ 7) = lit "-0.000000" := by decide +kernel

/-- A platform whose doubles are exact. -/
def exactDoubles (rnd : Nearest ℚ) (P : Platform σ ℚ) : Platform σ ℚ :=
  { P with zero := 0, stod := stod, toString := fixedToString rnd }

end Conversion

section Fixed

variable {ds fs : Text}

/-- A decimal numeral with a point is taken apart at the point. -/
theorem significand_append (hds : ∀ c ∈ ds, isdigit c = true) (hfs : ∀ c ∈ fs, isdigit c = true) :
    significand isdigit (ds ++ point :: fs) = (ds, fs, []) := by
  have hdrop : (ds ++ point :: fs).dropWhile isdigit = point :: fs := by
    rw [List.dropWhile_append_of_pos hds]
    rfl
  have htake : (ds ++ point :: fs).takeWhile isdigit = ds := by
    refine takeWhile_isdigit_append hds fun c hc => ?_
    obtain rfl := Option.some.inj hc
    rfl
  simp only [significand, hdrop, htake, if_pos]
  rw [List.takeWhile_eq_self_iff.mpr hfs, List.dropWhile_eq_nil_iff.mpr hfs]

/-- Digits and a point do not begin a hexadecimal numeral. -/
theorem hexBody_append (hne : ds ≠ []) (hds : ∀ c ∈ ds, isdigit c = true) :
    hexBody (ds ++ point :: fs) = none := by
  match ds with
  | [c] => simp [hexBody, point]
  | c :: d :: rest =>
      have hd : isdigit d = true := hds d (by simp)
      have hx : ¬ (d.1 = 120 ∨ d.1 = 88) := by
        rintro (h | h) <;> simp [isdigit, h] at hd
      simp only [hexBody, List.cons_append, hx, and_false, if_false]

theorem scanDecimal_append (hne : ds ≠ []) (hds : ∀ c ∈ ds, isdigit c = true)
    (hfs : ∀ c ∈ fs, isdigit c = true) : scanDecimal (ds ++ point :: fs) =
      some ((positional 10 ((ds ++ fs).map digitOf) : ℚ) / 10 ^ fs.length) := by
  have hdigits : ds ++ fs ≠ [] := by simp [hne]
  simp only [scanDecimal, significand_append hds hfs, if_neg hdigits, exponent, zpow_zero, mul_one]

/-- A signed decimal numeral with a point converts to its value. -/
theorem stod_append {sign : Text} (hsign : sign = [] ∨ sign = lit "+" ∨ sign = lit "-")
    (hne : ds ≠ []) (hds : ∀ c ∈ ds, isdigit c = true) (hfs : ∀ c ∈ fs, isdigit c = true) :
    let x : ℚ := positional 10 ((ds ++ fs).map digitOf) / 10 ^ fs.length
    stod (sign ++ (ds ++ point :: fs)) = .ok (if sign = lit "-" then -x else x) := by
  have hbody : ∃ c ∈ (ds ++ point :: fs).head?, isdigit c = true := by
    obtain ⟨c, cs, rfl⟩ := List.exists_cons_of_ne_nil hne
    exact ⟨c, rfl, hds c List.mem_cons_self⟩
  simp only [stod, dropWhile_isspace_append hsign hbody, splitSign_append hsign hbody,
    hexBody_append hne hds, scanDecimal_append hne hds hfs, Option.bind_none, Option.none_or,
    decide_eq_true_eq]

/-- A number of millionths written with six digits behind the point reads back. -/
theorem stod_millionths {sign : Text} (hsign : sign = [] ∨ sign = lit "+" ∨ sign = lit "-")
    (m : ℕ) :
    stod (sign ++ (natToString (m / 10 ^ 6) ++ point :: (lastDigits 10 6 m).map digitChar)) =
      .ok (if sign = lit "-" then -((m : ℚ) / 10 ^ 6) else (m : ℚ) / 10 ^ 6) := by
  obtain ⟨hne, hdigits, hvalue⟩ := natToString_spec (m / 10 ^ 6)
  have hfraction : ∀ c ∈ (lastDigits 10 6 m).map digitChar, isdigit c = true := fun c hc =>
    isdigit_of_mem_map hc
  have hwhole : positional 10 ((natToString (m / 10 ^ 6)).map digitOf) = m / 10 ^ 6 := by
    rw [← digitsValue_eq_positional, hvalue]
  have hlast : ((lastDigits 10 6 m).map digitChar).map digitOf = lastDigits 10 6 m :=
    map_digitOf_digitChar fun d hd => lt_of_mem_lastDigits (by omega) 6 m hd
  have hpos : positional 10 ((natToString (m / 10 ^ 6) ++ (lastDigits 10 6 m).map digitChar).map
      digitOf) = m := by
    rw [List.map_append, hlast, positional_split (by omega) 6 m hwhole]
  have hlen : ((lastDigits 10 6 m).map digitChar).length = 6 := by
    rw [List.length_map, length_lastDigits (by omega)]
  have hread := stod_append hsign hne hdigits hfraction
  simpa only [hpos, hlen] using hread

/-- What `std::to_string` writes reads back as the number rounded to six digits. -/
theorem stod_fixedToString (rnd : Nearest ℚ) (x : ℚ) :
    stod (fixedToString rnd x) =
      .ok (if x < 0 then -rnd.fixed (10 ^ 6) |x| else rnd.fixed (10 ^ 6) |x|) := by
  have hnonneg : 0 ≤ |x| * 10 ^ 6 := by positivity
  obtain ⟨m, hm⟩ := Int.eq_ofNat_of_zero_le (rnd.round_nonneg hnonneg)
  simp only [fixedToString, Nearest.fixed, hm, Int.toNat_natCast, Int.cast_natCast]
  by_cases hx : x < 0
  · rw [if_pos hx, if_pos hx, stod_millionths (Or.inr (Or.inr rfl)), if_pos rfl]
  · rw [if_neg hx, if_neg hx, stod_millionths (Or.inl rfl), if_neg (by decide)]

end Fixed

end IoEmulator.CtfIo
