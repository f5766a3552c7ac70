import ExactLinAlg.Mat.Basic
import ExactLinAlg.Trace

/-!
# Elementary row operations

A row operation is a value, so that the same one can be carried out on several matrices. It
fails if one of its rows lies outside the matrix or an entry overflows, and then changes nothing.
-/

namespace ExactLinAlg

/-- An elementary operation on the rows of a matrix. -/
inductive RowOp where
  /-- Exchanges two rows. -/
  | swap (i j : Nat)
  /-- Multiplies a row by a factor. -/
  | scale (factor : Fraction) (i : Nat)
  /-- Adds a multiple of the row `source` to the row `target`, which may be the same row. -/
  | addScaled (factor : Fraction) (source target : Nat)
deriving DecidableEq

namespace RowOp

/-- The matrix after a row operation. -/
def apply (m : Mat) : RowOp → Except Error Mat
  | swap i j => do
    let upper ← m.line i
    let lower ← m.line j
    return (m.withLine i lower).withLine j upper
  | scale factor i => do
    let row ← m.line i
    return m.withLine i (← Vec.scale row factor)
  | addScaled factor source target => do
    let added ← m.line source
    let row ← m.line target
    return m.withLine target (← Vec.addScaled row factor added)

/-- Exchanges of rows are reported, whether or not they succeed. -/
def events : RowOp → List Event
  | swap i j => [.swapRows i j]
  | scale .. | addScaled .. => []

/-- Carries out a row operation on a matrix and reports it. -/
def perform (op : RowOp) (m : Mat) : Traced Mat := ⟨op.events, op.apply m⟩

end RowOp

end ExactLinAlg
