import ExactLinAlg.Fraction.Arithmetic
import ExactLinAlg.Mat.Basic

/-!
# Fractions, vectors and matrices as text

`Fraction.text` writes numerator and denominator with a stroke between them, `mixedText` splits
off the whole part, and `parse?` reads the first form back. `Vec.text` puts the texts of the
entries between brackets, and `Mat.text` those of the rows, one to a line.
-/

namespace ExactLinAlg.Fraction

/-- The text `n/d` of a fraction. -/
def text (a : Fraction) : String := s!"{a.num.toInt}/{a.den.toInt}"

/-- The whole part of a fraction, cut off toward zero. -/
def whole (a : Fraction) : Int := a.num.toInt.tdiv a.den.toInt

/-- The numerator that is left beside the whole part, without its sign. -/
def remainder (a : Fraction) : Nat := (a.num.toInt.tmod a.den.toInt).natAbs

/-- The text of a fraction as a mixed number: an integer, a proper fraction, or the whole part
followed by the proper fraction, with one sign in front. -/
def mixedText (a : Fraction) : String :=
  let sign := if a.num.toInt < 0 then "-" else ""
  let den := a.den.toInt
  let whole := a.whole
  let remainder := a.remainder
  if remainder = 0 then
    s!"{whole}"
  else if whole = 0 then
    s!"{sign}{remainder}/{den}"
  else
    let magnitude := whole.natAbs
    s!"{sign}{magnitude} {remainder}/{den}"

/-- The two integers around the first stroke of a text. -/
def splitText? (s : String) : Option (Int × Int) := do
  let parts := s.toList.span (· != '/')
  let num ← (String.ofList parts.1).toInt?
  let den ← (String.ofList (parts.2.drop 1)).toInt?
  return (num, den)

/-- The fraction that a text of the form `n/d` denotes. The two integers need not be in lowest
terms, and the denominator may be negative; there is none for a text of another form. -/
def parse? (s : String) : Option (Except Error Fraction) := do
  let (num, den) ← splitText? s
  return do make (← Word.ofInt num) (← Word.ofInt den)

end ExactLinAlg.Fraction

namespace ExactLinAlg

/-- The texts of the entries between brackets, with commas between them. -/
def Vec.text (v : Vec) : String :=
  let entries := ", ".intercalate (v.map Fraction.text)
  s!"[{entries}]"

/-- The texts of the rows, one to a line, between brackets. -/
def Mat.text (m : Mat) : String :=
  let rows := "\n".intercalate (m.data.map Vec.text)
  s!"[{rows}]"

end ExactLinAlg
