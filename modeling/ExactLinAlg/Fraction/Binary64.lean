import ExactLinAlg.Fraction.Convergents

/-!
# Fractions and binary numbers

A fraction becomes a binary number by dividing its rounded parts. A binary number becomes a
fraction exactly if it is an integer, and otherwise by the nearest convergent of its continued
fraction under a bound on the denominator.
-/

namespace ExactLinAlg.Fraction

/-- The binary number that the rounded numerator and denominator have as their quotient. -/
def toBinary64 (a : Fraction) : Binary64 :=
  .finite (Binary64.quotient a.num.toInt a.den.toInt)

/-- The fraction nearest to a number with a fractional part, among its convergents whose
denominators are at most `bound`. -/
def approximate (bound : Int64) (x : Rat) : Except Error Fraction :=
  let c := Convergent.nearest bound x.abs
  make (if x < 0 then -c.num else c.num) c.den

/-- The fraction that a binary number is closest to, with a denominator of at most `bound`; a
bound below one counts as one. Integers are converted exactly and fail if they do not fit. -/
def ofBinary64 (x : Binary64) (bound : Int64) : Except Error Fraction :=
  match x with
  | .nan => .error .notANumber
  | .infinity _ => .error .infinite
  | .finite value =>
    if value.isInt then do
      ofInt (← Word.ofInt value.num)
    else
      approximate (max bound 1) value

/-- The bound on denominators where the caller names none. -/
def defaultBound : Int64 := 1000000

end ExactLinAlg.Fraction
