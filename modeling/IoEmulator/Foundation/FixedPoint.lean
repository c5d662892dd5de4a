import Mathlib.Algebra.Order.Ring.Abs
import Mathlib.Data.Nat.Digits.Lemmas
import Mathlib.Data.Rat.Floor
import Mathlib.Tactic.Linarith
import Mathlib.Tactic.FieldSimp

/-!
# Digits in writing order and fixed-point rounding

Numbers as they are written, most significant digit first, with a fixed number
of digits behind the point; rounding to the nearest such number, with any rule
for ties, and the numbers that it leaves alone.
-/

namespace Foundation.FixedPoint

section Positional

/-- The number written with the digits `ds` in base `b`. -/
def positional (b : ℕ) (ds : List ℕ) : ℕ := ds.foldl (fun n d => b * n + d) 0

theorem positional_eq_ofDigits (b : ℕ) (ds : List ℕ) :
    positional b ds = Nat.ofDigits b ds.reverse := by
  rw [positional, Nat.ofDigits_eq_foldr, List.foldr_reverse]
  simp [add_comm]

theorem positional_append (b : ℕ) (xs ys : List ℕ) :
    positional b (xs ++ ys) = positional b xs * b ^ ys.length + positional b ys := by
  simp only [positional_eq_ofDigits, List.reverse_append, Nat.ofDigits_append, List.length_reverse]
  ring

theorem positional_digits (b n : ℕ) : positional b (Nat.digits b n).reverse = n := by
  rw [positional_eq_ofDigits, List.reverse_reverse, Nat.ofDigits_digits]

/-- The last `k` digits of `n`, leading zeros included. -/
def lastDigits (b k n : ℕ) : List ℕ := (Nat.digitsAppend b k (n % b ^ k)).reverse

variable {b : ℕ} (hb : 1 < b) (k n : ℕ)

include hb

theorem length_lastDigits : (lastDigits b k n).length = k := by
  have hpos : 0 < b ^ k := Nat.pow_pos (by omega)
  rw [lastDigits, List.length_reverse, Nat.length_digitsAppend hb k (Nat.mod_lt n hpos)]

theorem lt_of_mem_lastDigits {d : ℕ} (hd : d ∈ lastDigits b k n) : d < b :=
  Nat.lt_of_mem_digitsAppend hb k d (List.mem_reverse.mp hd)

omit hb in
theorem positional_lastDigits : positional b (lastDigits b k n) = n % b ^ k := by
  rw [lastDigits, positional_eq_ofDigits, List.reverse_reverse, Nat.digitsAppend,
    Nat.ofDigits_append_replicate_zero, Nat.ofDigits_digits]

/-- Digits of the rest in front of the last `k` digits write the number again. -/
theorem positional_split {ds : List ℕ} (hds : positional b ds = n / b ^ k) :
    positional b (ds ++ lastDigits b k n) = n := by
  calc
    positional b (ds ++ lastDigits b k n) = positional b ds * b ^ k + n % b ^ k := by
      rw [positional_append, length_lastDigits hb, positional_lastDigits]
    _ = n / b ^ k * b ^ k + n % b ^ k := by rw [hds]
    _ = n := Nat.div_add_mod' n (b ^ k)

end Positional

section Rounding

variable {K : Type*} [Field K] [LinearOrder K]

/-- Rounding to a nearest integer. -/
structure Nearest (K : Type*) [Field K] [LinearOrder K] where
  round : K → ℤ
  near : ∀ x, |(round x : K) - x| ≤ 1 / 2

variable [IsStrictOrderedRing K] (rnd : Nearest K)

@[simp] theorem Nearest.round_intCast (n : ℤ) : rnd.round (n : K) = n := by
  have hnear := rnd.near (n : K)
  have hlt : |((rnd.round n - n : ℤ) : K)| < 1 := by
    push_cast
    linarith
  have hzero : rnd.round (n : K) - n = 0 := by
    rw [← Int.abs_lt_one_iff]
    exact_mod_cast hlt
  omega

theorem Nearest.round_nonneg {x : K} (hx : 0 ≤ x) : 0 ≤ rnd.round x := by
  have hnear := (abs_le.mp (rnd.near x)).1
  have hlt : (-1 : K) < rnd.round x := by linarith
  have hint : (-1 : ℤ) < rnd.round x := by exact_mod_cast hlt
  omega

/-- The nearest number with `scale` steps to the unit. -/
def Nearest.fixed (scale x : K) : K := rnd.round (x * scale) / scale

/-- Rounding leaves exactly the whole numbers of steps alone. -/
theorem Nearest.fixed_eq_self_iff {scale : K} (hscale : scale ≠ 0) (x : K) :
    rnd.fixed scale x = x ↔ ∃ n : ℤ, x * scale = n := by
  rw [Nearest.fixed, div_eq_iff hscale]
  constructor
  · intro h
    exact ⟨_, h.symm⟩
  · rintro ⟨n, hn⟩
    rw [hn, rnd.round_intCast]

/-- Rounding moves a number by half a step at most. -/
theorem Nearest.fixed_near {scale : K} (hscale : 0 < scale) (x : K) :
    |rnd.fixed scale x - x| ≤ 1 / 2 / scale := by
  have hmoved : rnd.fixed scale x - x = (rnd.round (x * scale) - x * scale) / scale := by
    rw [Nearest.fixed, sub_div, mul_div_cancel_right₀ x hscale.ne']
  rw [hmoved, abs_div, abs_of_pos hscale]
  exact div_le_div_of_nonneg_right (rnd.near (x * scale)) hscale.le

omit [IsStrictOrderedRing K] in
/-- A rounded number is a whole number of steps. -/
theorem Nearest.fixed_mul {scale : K} (hscale : scale ≠ 0) (x : K) :
    rnd.fixed scale x * scale = rnd.round (x * scale) := by
  rw [Nearest.fixed, div_mul_cancel₀ _ hscale]

/-- Ties go to the even neighbour. -/
def Nearest.halfEven [FloorRing K] : Nearest K where
  round x :=
    if Int.fract x < 1 / 2 ∨ Int.fract x = 1 / 2 ∧ ⌊x⌋ % 2 = 0 then ⌊x⌋ else ⌊x⌋ + 1
  near x := by
    have hx := Int.floor_add_fract x
    have hnonneg := Int.fract_nonneg x
    have hlt := Int.fract_lt_one x
    split
    · rename_i h
      rw [abs_le]
      rcases h with h | ⟨h, -⟩ <;> constructor <;> linarith
    · rename_i h
      have hge : 1 / 2 ≤ Int.fract x := not_lt.mp fun hl => h (Or.inl hl)
      push_cast
      rw [abs_le]
      constructor <;> linarith

end Rounding

end Foundation.FixedPoint
