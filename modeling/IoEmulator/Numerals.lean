import IoEmulator.Text
import IoEmulator.Foundation.FixedPoint

/-!
# Integer numerals

When a text denotes an integer, which texts `std::stoi` converts, and that it
converts what `std::to_string` writes.
-/

namespace IoEmulator

open Foundation.FixedPoint

section Digits

/-- The digit that a character stands for. -/
def digitOf (c : CChar) : ℕ := c.1.toNat - 48

theorem digitsValue_eq_positional (ds : Text) :
    digitsValue ds = positional 10 (ds.map digitOf) := by
  rw [positional, List.foldl_map]
  rfl

theorem toNat_digitChar (d : ℕ) : (digitChar d).1.toNat = 48 + d % 10 := by
  have hd : d % 10 < 10 := Nat.mod_lt d (by omega)
  simp only [digitChar, UInt8.toNat_ofNat']
  omega

theorem isdigit_digitChar (d : ℕ) : isdigit (digitChar d) = true := by
  have hd := toNat_digitChar d
  simp only [isdigit, Bool.and_eq_true, decide_eq_true_eq, UInt8.le_iff_toNat_le]
  constructor
  · change 48 ≤ (digitChar d).1.toNat
    omega
  · change (digitChar d).1.toNat ≤ 57
    omega

theorem digitOf_digitChar {d : ℕ} (hd : d < 10) : digitOf (digitChar d) = d := by
  rw [digitOf, toNat_digitChar, Nat.mod_eq_of_lt hd]
  omega

theorem isdigit_of_mem_map {ds : List ℕ} {c : CChar} (hc : c ∈ ds.map digitChar) :
    isdigit c = true := by
  obtain ⟨d, -, rfl⟩ := List.mem_map.mp hc
  exact isdigit_digitChar d

theorem map_digitOf_digitChar {ds : List ℕ} (hds : ∀ d ∈ ds, d < 10) :
    (ds.map digitChar).map digitOf = ds := by
  rw [List.map_map]
  conv_rhs => rw [← List.map_id ds]
  exact List.map_congr_left fun d hd => digitOf_digitChar (hds d hd)

/-- What `std::to_string` writes is a string of digits with the value written. -/
theorem natToString_spec (n : ℕ) : natToString n ≠ [] ∧
    (∀ c ∈ natToString n, isdigit c = true) ∧ digitsValue (natToString n) = n := by
  unfold natToString
  split
  · rename_i hn
    subst hn
    refine ⟨by simp, fun c hc => ?_, rfl⟩
    obtain rfl := List.mem_singleton.mp hc
    exact isdigit_digitChar 0
  · rename_i hn
    refine ⟨?_, fun c hc => isdigit_of_mem_map hc, ?_⟩
    · simpa [Nat.digits_eq_nil_iff_eq_zero] using hn
    · rw [digitsValue_eq_positional, map_digitOf_digitChar, positional_digits]
      intro d hd
      exact Nat.digits_lt_base (by omega) (List.mem_reverse.mp hd)

end Digits

section Signed

/-- The text is an optionally signed string of digits that denotes `n`. -/
def Denotes (s : Text) (n : Int) : Prop :=
  ∃ sign digits, s = sign ++ digits ∧ digits ≠ [] ∧ (∀ c ∈ digits, isdigit c = true) ∧
    ((sign = [] ∨ sign = lit "+") ∧ n = digitsValue digits ∨
      sign = lit "-" ∧ n = -digitsValue digits)

/-- No digit stands at the beginning of the text. -/
def NoDigitAhead (r : Text) : Prop := ∀ c ∈ r.head?, isdigit c = false

theorem takeWhile_isdigit_append {ds r : Text} (hds : ∀ c ∈ ds, isdigit c = true)
    (hr : NoDigitAhead r) : (ds ++ r).takeWhile isdigit = ds := by
  rw [List.takeWhile_append_of_pos hds]
  cases r with
  | nil => simp
  | cons c cs => simp [hr c rfl]

theorem noDigitAhead_dropWhile (s : Text) : NoDigitAhead (s.dropWhile isdigit) := by
  intro c hc
  have h := List.head?_dropWhile_not isdigit s
  rw [Option.mem_def.mp hc] at h
  simpa using h

/-- A digit is neither whitespace nor a sign. -/
theorem isdigit_excludes {c : CChar} (hc : isdigit c = true) :
    isspace c = false ∧ c.1 ≠ 45 ∧ c.1 ≠ 43 := by
  simp only [isdigit, Bool.and_eq_true, decide_eq_true_eq, UInt8.le_iff_toNat_le] at hc
  simp only [isspace, Bool.or_eq_false_iff, Bool.and_eq_false_iff, decide_eq_false_iff_not,
    UInt8.le_iff_toNat_le, ne_eq, ← UInt8.toNat_inj]
  obtain ⟨hlow, hhigh⟩ := hc
  simp only [UInt8.reduceToNat] at *
  omega

/-- The sign that `splitSign` takes off, if any. -/
theorem splitSign_cases (s : Text) : ∃ sign, s = sign ++ (splitSign s).2 ∧
    ((sign = [] ∨ sign = lit "+") ∧ (splitSign s).1 = false ∨
      sign = lit "-" ∧ (splitSign s).1 = true) := by
  cases s with
  | nil => exact ⟨[], rfl, Or.inl ⟨Or.inl rfl, rfl⟩⟩
  | cons c cs =>
      by_cases h45 : c.1 = 45
      · have hc : c = ⟨45, by decide⟩ := Subtype.ext h45
        subst hc
        exact ⟨lit "-", rfl, Or.inr ⟨rfl, rfl⟩⟩
      · by_cases h43 : c.1 = 43
        · have hc : c = ⟨43, by decide⟩ := Subtype.ext h43
          subst hc
          exact ⟨lit "+", rfl, Or.inl ⟨Or.inr rfl, rfl⟩⟩
        · have hnone : splitSign (c :: cs) = (false, c :: cs) := by simp [splitSign, h45, h43]
          exact ⟨[], by rw [hnone]; rfl, Or.inl ⟨Or.inl rfl, by rw [hnone]⟩⟩

/-- A sign in front of digits is taken off. -/
theorem splitSign_append {sign body : Text} (hsign : sign = [] ∨ sign = lit "+" ∨ sign = lit "-")
    (hbody : ∃ c ∈ body.head?, isdigit c = true) :
    splitSign (sign ++ body) = (decide (sign = lit "-"), body) := by
  rcases hsign with rfl | rfl | rfl
  · obtain ⟨c, hmem, hc⟩ := hbody
    obtain ⟨cs, rfl⟩ := List.head?_eq_some_iff.mp hmem
    obtain ⟨-, h45, h43⟩ := isdigit_excludes hc
    simp only [List.nil_append, splitSign, if_neg h45, if_neg h43]
    rfl
  · rfl
  · rfl

/-- A signed text of digits does not begin with whitespace. -/
theorem dropWhile_isspace_append {sign body : Text}
    (hsign : sign = [] ∨ sign = lit "+" ∨ sign = lit "-")
    (hbody : ∃ c ∈ body.head?, isdigit c = true) :
    (sign ++ body).dropWhile isspace = sign ++ body := by
  rcases hsign with rfl | rfl | rfl
  · obtain ⟨c, hmem, hc⟩ := hbody
    obtain ⟨cs, rfl⟩ := List.head?_eq_some_iff.mp hmem
    obtain ⟨hspace, -, -⟩ := isdigit_excludes hc
    simp [hspace]
  · rfl
  · rfl

/-- Behind whitespace, the numeral that is as long as possible is the one read. -/
theorem leadingNumeral_append {w t r : Text} {n : Int} (hw : ∀ c ∈ w, isspace c = true)
    (ht : Denotes t n) (hr : NoDigitAhead r) :
    (leadingNumeral (w ++ (t ++ r))).2 ≠ [] ∧
      signedValue (leadingNumeral (w ++ (t ++ r))).1 (leadingNumeral (w ++ (t ++ r))).2 = n := by
  obtain ⟨sign, digits, rfl, hne, hdigits, hsign⟩ := ht
  obtain ⟨c, cs, rfl⟩ := List.exists_cons_of_ne_nil hne
  have hc : isdigit c = true := hdigits c List.mem_cons_self
  have hsigns : sign = [] ∨ sign = lit "+" ∨ sign = lit "-" := by
    rcases hsign with ⟨h | h, -⟩ | ⟨h, -⟩ <;> simp [h]
  have hbody : ∃ d ∈ (c :: cs ++ r).head?, isdigit d = true := ⟨c, rfl, hc⟩
  have hread : leadingNumeral (w ++ (sign ++ (c :: cs) ++ r)) =
      (decide (sign = lit "-"), c :: cs) := by
    rw [leadingNumeral, List.dropWhile_append_of_pos hw, List.append_assoc,
      dropWhile_isspace_append hsigns hbody, splitSign_append hsigns hbody,
      takeWhile_isdigit_append hdigits hr]
  rw [hread]
  refine ⟨hne, ?_⟩
  rcases hsign with ⟨rfl | rfl, rfl⟩ | ⟨rfl, rfl⟩ <;> rfl

/-- What is read is a numeral behind whitespace, as long as possible. -/
theorem exists_leadingNumeral {s : Text} (h : (leadingNumeral s).2 ≠ []) :
    ∃ w t r, s = w ++ (t ++ r) ∧ (∀ c ∈ w, isspace c = true) ∧ NoDigitAhead r ∧
      Denotes t (signedValue (leadingNumeral s).1 (leadingNumeral s).2) := by
  obtain ⟨sign, hsplit, hsign⟩ := splitSign_cases (s.dropWhile isspace)
  refine ⟨s.takeWhile isspace, sign ++ (leadingNumeral s).2,
    (splitSign (s.dropWhile isspace)).2.dropWhile isdigit, ?_, fun c hc => ?_,
    noDigitAhead_dropWhile _, sign, _, rfl, h, fun c hc => ?_, ?_⟩
  · rw [List.append_assoc, leadingNumeral, List.takeWhile_append_dropWhile, ← hsplit,
      List.takeWhile_append_dropWhile]
  · exact List.mem_takeWhile_imp hc
  · exact List.mem_takeWhile_imp hc
  · rcases hsign with ⟨hs, hneg⟩ | ⟨hs, hneg⟩
    · exact Or.inl ⟨hs, by simp [signedValue, leadingNumeral, hneg]⟩
    · exact Or.inr ⟨hs, by simp [signedValue, leadingNumeral, hneg]⟩

theorem inIntRange_toInt (n : Int32) : InIntRange n.toInt := by
  have hlow := n.le_toInt
  have hhigh := n.toInt_lt
  exact ⟨hlow, hhigh⟩

theorem toInt_ofInt {n : Int} (hn : InIntRange n) : (Int32.ofInt n).toInt = n :=
  Int32.toInt_ofInt_of_le hn.1 hn.2

/-- `std::stoi` converts a text exactly when, behind whitespace, a numeral in range
stands at its beginning; nothing is asked of what follows the digits. -/
theorem stoi_eq_ok_iff (s : Text) (n : Int32) : stoi s = .ok n ↔
    ∃ w t r, s = w ++ (t ++ r) ∧ (∀ c ∈ w, isspace c = true) ∧ NoDigitAhead r ∧
      Denotes t n.toInt := by
  rw [stoi_eq]
  constructor
  · intro h
    split at h
    · simp at h
    · rename_i hne
      split at h
      · rename_i hrange
        obtain rfl := Except.ok.inj h
        rw [toInt_ofInt hrange]
        exact exists_leadingNumeral hne
      · simp at h
  · rintro ⟨w, t, r, rfl, hw, hr, ht⟩
    obtain ⟨hne, hvalue⟩ := leadingNumeral_append hw ht hr
    rw [if_neg hne, hvalue, if_pos (inIntRange_toInt n), Int32.ofInt_toInt]

/-- What `std::to_string` writes denotes the `int` written. -/
theorem denotes_intToString (n : Int32) : Denotes (intToString n) n.toInt := by
  obtain ⟨hne, hdigits, hvalue⟩ := natToString_spec n.toInt.natAbs
  unfold intToString
  split
  · rename_i hneg
    exact ⟨lit "-", natToString n.toInt.natAbs, rfl, hne, hdigits, Or.inr ⟨rfl, by omega⟩⟩
  · rename_i hneg
    exact ⟨[], natToString n.toInt.natAbs, rfl, hne, hdigits, Or.inl ⟨Or.inl rfl, by omega⟩⟩

/-- `std::stoi` reads back what `std::to_string` writes. -/
theorem stoi_intToString (n : Int32) : stoi (intToString n) = .ok n := by
  apply (stoi_eq_ok_iff _ n).mpr
  exact ⟨[], intToString n, [], by simp, by simp, by simp [NoDigitAhead], denotes_intToString n⟩

/-- A numeral has no whitespace in it. -/
theorem Denotes.isspace_eq_false {s : Text} {n : Int} (h : Denotes s n) :
    ∀ c ∈ s, isspace c = false := by
  obtain ⟨sign, digits, rfl, -, hdigits, hsign⟩ := h
  intro c hc
  rcases List.mem_append.mp hc with hc | hc
  · rcases hsign with ⟨rfl | rfl, -⟩ | ⟨rfl, -⟩
    · simp at hc
    · obtain rfl := List.mem_singleton.mp hc
      rfl
    · obtain rfl := List.mem_singleton.mp hc
      rfl
  · exact (isdigit_excludes (hdigits c hc)).1

theorem Denotes.ne_nil {s : Text} {n : Int} (h : Denotes s n) : s ≠ [] := by
  obtain ⟨sign, digits, rfl, hne, -⟩ := h
  simp [hne]

/-- A numeral at the beginning of a numeral is followed by another digit. -/
theorem Denotes.eq_nil_of_append {t r : Text} {m n : Int} (ht : Denotes t m)
    (h : Denotes (t ++ r) n) (hr : NoDigitAhead r) : r = [] := by
  cases r with
  | nil => rfl
  | cons c cs =>
      obtain ⟨sign, digits, heq, -, hdigits, hsign⟩ := h
      have hlen : sign.length ≤ 1 := by
        rcases hsign with ⟨rfl | rfl, -⟩ | ⟨rfl, -⟩ <;> decide
      have hpos : 0 < t.length := List.length_pos_iff.mpr ht.ne_nil
      have hc : c ∈ digits := by
        have hdrop : digits = (t ++ c :: cs).drop sign.length := by rw [heq, List.drop_left]
        rw [hdrop, List.drop_append_of_le_length (by omega)]
        simp
      simpa [hdigits c hc] using hr c rfl

end Signed

end IoEmulator
