import ExactLinAlg.Mat.Basic
import ExactLinAlg.Random.Stream

/-!
# Random fractions, vectors and matrices

The entries are drawn one by one, row after row, each from its own words of the stream.
-/

namespace ExactLinAlg

open WordStream

/-- A fraction whose numerator lies between `-bound` and `bound` and whose denominator lies
between `1` and `bound` before both are reduced; a bound of zero counts as one. -/
def Fraction.random (bound : UInt32) : StateM WordStream Fraction := do
  let size : Int := max bound.toNat 1
  have hsize : 1 ≤ size ∧ size ≤ 4294967295 := by
    have hlt : bound.toNat < 4294967296 := bound.toNat_lt
    omega
  let num ← between draw64 (-size) size (by omega)
  let den ← between draw64 1 size hsize.1
  have hnum : (Int64.ofInt num.val).toInt = num.val :=
    Word.toInt_ofInt_of_inRange (Word.inRange_iff.2 (by omega))
  have hden : (Int64.ofInt den.val).toInt = den.val :=
    Word.toInt_ofInt_of_inRange (Word.inRange_iff.2 (by omega))
  have hpos : 0 < (Int64.ofInt den.val).toInt := by omega
  return Fraction.reduce (Int64.ofInt num.val) (Int64.ofInt den.val) hpos
    (Fraction.div_commonDivisor_ne_min hpos fun h => by
      rw [h, Int64.toInt_minValue] at hnum
      omega)

/-- A vector of random fractions. -/
def Vec.random (n : Nat) (bound : UInt32) : StateM WordStream Vec :=
  Vec.buildM n fun _ => Fraction.random bound

/-- A matrix of random fractions. -/
def Mat.random (rows cols : Nat) (bound : UInt32) : StateM WordStream Mat :=
  Mat.buildM rows cols fun _ _ => Fraction.random bound

end ExactLinAlg
