import ExactLinAlg.Mat.Basic
import ExactLinAlg.Random.Stream

/-!
# Random matrices of determinant one or minus one

A random unimodular matrix is the product of a lower triangular matrix with ones on its diagonal
and an upper triangular matrix with ones and minus ones on its diagonal. All other entries of
the factors are `-1`, `0` or `1`.
-/

namespace ExactLinAlg

open WordStream

/-- The new entries of two triangular factors that grow by one row and one column: the last row
of the lower factor and the last column of the upper one. -/
structure Border where
  row : List Int
  column : List Int

namespace Border

/-- A pair of entries, one of the lower and one of the upper factor. -/
def drawPair : StateM WordStream (Int × Int) := do
  let lower ← between draw32 (-1) 1 (by decide)
  let upper ← between draw32 (-1) 1 (by decide)
  return (lower.val, upper.val)

/-- The border at position `i`. The entry on the diagonal of the upper factor is drawn first,
then the entries of both factors before it in pairs. -/
def draw (i : Nat) : StateM WordStream Border := do
  let corner : Int := if ← drawBool then 1 else -1
  let pairs ← (List.range i).mapM fun _ => drawPair
  return ⟨pairs.map Prod.fst ++ [1], pairs.map Prod.snd ++ [corner]⟩

/-- The entry of the product of the factors where the row of one border meets the column of
another. -/
def product (left right : Border) : Int :=
  (List.zipWith (· * ·) left.row right.column).foldl (· + ·) 0

end Border

/-- A square matrix of integers whose determinant is `1` or `-1`. -/
def Mat.randomUnimodular (size : Nat) : StateM WordStream Mat := do
  let borders ← (List.range size).mapM Border.draw
  let data := borders.map fun left =>
    borders.map fun right => Fraction.ofInt32 (Int32.ofInt (left.product right))
  return ⟨size, size, data⟩

end ExactLinAlg
