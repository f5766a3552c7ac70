import ExactLinAlg.Mat.Basic
import ExactLinAlg.Trace

/-!
# The choice of a pivot

The pivot of a column is an entry of largest absolute value among the rows that have no pivot
yet, and of several such entries the topmost.
-/

namespace ExactLinAlg.Mat

/-- The better of a candidate for the pivot of column `col`, a row with the absolute value of its
entry, and row `i`: the later row has to be larger. -/
def betterPivot (m : Mat) (col : Nat) (best : Nat × Fraction) (i : Nat) :
    Except Error (Nat × Fraction) := do
  let value := (← m.entry i col).abs
  match ← Fraction.compare value best.2 with
  | .gt => return (i, value)
  | _ => return best

/-- The row of the largest absolute value in column `col` from row `top` on, with that value. -/
def largestEntry (m : Mat) (col top : Nat) : Except Error (Nat × Fraction) := do
  let first := (← m.entry top col).abs
  (List.range' (top + 1) (m.rows - (top + 1))).foldlM (m.betterPivot col) (top, first)

/-- The row of the pivot of column `col` from row `top` on, if an entry there is not zero. A
completed search is reported with the value that it found, even if that is zero. -/
def selectPivot (m : Mat) (col top : Nat) : Traced (Option Nat) := do
  if m.rows ≤ top then
    return none
  let best ← m.largestEntry col top
  Traced.report (.selectedPivot col best.1 best.2)
  return if best.2.isZero then none else some best.1

end ExactLinAlg.Mat
