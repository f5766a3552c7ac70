import ExactLinAlg.Fraction.Basic

/-!
# Arithmetic and order of fractions

Sums, products and quotients are formed by cross multiplication of words and reduced at the
end, so an operation fails with an overflow as soon as one of its intermediate words does not
fit, even where the reduced result would. Opposites and absolute values always exist.
-/

namespace ExactLinAlg.Fraction

/-- The sum of two fractions. -/
def add (a b : Fraction) : Except Error Fraction := do
  let left ← Word.mul a.num b.den
  let right ← Word.mul b.num a.den
  let num ← Word.add left right
  let den ← Word.mul a.den b.den
  make num den

/-- The opposite of a fraction. -/
def neg (a : Fraction) : Fraction where
  num := -a.num
  den := a.den
  den_pos := a.den_pos
  coprime := by
    rw [Word.toInt_neg_of_ne_min a.num_ne_min, Int.natAbs_neg]
    exact a.coprime
  num_ne_min := fun h => by
    have hneg := Word.toInt_neg_of_ne_min a.num_ne_min
    have hle := a.num_le
    rw [h, Int64.toInt_minValue] at hneg
    omega

instance : Neg Fraction := ⟨neg⟩

/-- The difference of two fractions, the sum with the opposite. -/
def sub (a b : Fraction) : Except Error Fraction := add a (-b)

/-- The product of two fractions. -/
def mul (a b : Fraction) : Except Error Fraction := do
  let num ← Word.mul a.num b.num
  let den ← Word.mul a.den b.den
  make num den

/-- The quotient of two fractions; the divisor must not be zero. -/
def div (a b : Fraction) : Except Error Fraction := do
  if b.isZero then
    throw .divisionByZero
  let num ← Word.mul a.num b.den
  let den ← Word.mul a.den b.num
  make num den

/-- The reciprocal of a fraction other than zero. -/
def recip (a : Fraction) : Except Error Fraction := make a.den a.num

/-- The absolute value of a fraction. -/
def abs (a : Fraction) : Fraction := if a.num < 0 then -a else a

/-- The order of two fractions, by cross multiplication. -/
def compare (a b : Fraction) : Except Error Ordering := do
  let left ← Word.mul a.num b.den
  let right ← Word.mul b.num a.den
  return Ord.compare left.toInt right.toInt

/-! ## Opposites and absolute values -/

@[simp] theorem den_neg (a : Fraction) : (-a).den = a.den := rfl

theorem toInt_num_neg (a : Fraction) : (-a).num.toInt = -a.num.toInt :=
  Word.toInt_neg_of_ne_min a.num_ne_min

theorem toInt_num_abs (a : Fraction) : a.abs.num.toInt = a.num.toInt.natAbs := by
  unfold abs
  split
  · next h =>
    have hlt := Int64.lt_iff_toInt_lt.1 h
    rw [Int64.toInt_zero] at hlt
    rw [toInt_num_neg]
    omega
  · next h =>
    have hge : 0 ≤ a.num.toInt := by
      have hnlt : ¬ a.num.toInt < (0 : Int64).toInt := fun h' => h (Int64.lt_iff_toInt_lt.2 h')
      rw [Int64.toInt_zero] at hnlt
      omega
    omega

end ExactLinAlg.Fraction
