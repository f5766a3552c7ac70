import ExactLinAlg.Elimination.Pivot
import ExactLinAlg.Mat.RowOp

/-!
# Tableaus

A tableau is a matrix under elimination, possibly with a companion on which every row operation
is carried out as well. The steps here work on one column: fetch its pivot, make the pivot one,
and clear other entries of the column.
-/

namespace ExactLinAlg

/-- A matrix under elimination with an optional companion of as many rows. -/
structure Tableau where
  main : Mat
  companion : Option Mat
deriving DecidableEq

namespace Tableau

/-- Carries out a row operation on the matrix, and then on the companion. -/
def apply (t : Tableau) (op : RowOp) : Traced Tableau := do
  let main ← op.perform t.main
  let companion ← t.companion.mapM op.perform
  return ⟨main, companion⟩

/-- Moves the pivot of column `col` into row `row` from that row or one below; the answer tells
whether rows were exchanged, and is `none` if the column has no pivot there. -/
def fetchPivot (t : Tableau) (col row : Nat) : Traced (Option (Tableau × Bool)) := do
  match ← t.main.selectPivot col row with
  | none => return none
  | some i =>
    if i = row then
      return some (t, false)
    else
      return some (← t.apply (.swap row i), true)

/-- Divides row `row` by its entry in column `col`. -/
def normalizeRow (t : Tableau) (col row : Nat) : Traced Tableau := do
  let pivot ← t.main.entry row col
  t.apply (.scale (← pivot.recip) row)

/-- Adds a multiple of row `row` to row `target` unless the entry of `target` in column `col` is
zero already. The multiple is found from that entry. -/
def clearEntry (multiple : Fraction → Except Error Fraction) (col row : Nat) (t : Tableau)
    (target : Nat) : Traced Tableau := do
  let entry ← t.main.entry target col
  if entry.isZero then
    return t
  t.apply (.addScaled (← multiple entry) row target)

/-- Clears the entries of column `col` below row `row`. -/
def clearBelow (multiple : Fraction → Except Error Fraction) (t : Tableau) (col row : Nat) :
    Traced Tableau :=
  (List.range' (row + 1) (t.main.rows - (row + 1))).foldlM (clearEntry multiple col row) t

/-- Clears the entries of column `col` above row `row`. -/
def clearAbove (multiple : Fraction → Except Error Fraction) (t : Tableau) (col row : Nat) :
    Traced Tableau :=
  (List.range row).foldlM (clearEntry multiple col row) t

/-- The multiple of a row with pivot one that clears an entry. -/
def opposite (entry : Fraction) : Except Error Fraction := return -entry

/-- Brings column `col` into echelon form from row `row` on: the pivot becomes one, the entries
below it zero. The answer is `none` if the column has no pivot there. -/
def reduceColumn (t : Tableau) (col row : Nat) : Traced (Option Tableau) := do
  match ← t.fetchPivot col row with
  | none => return none
  | some (t, _) =>
    let t ← t.normalizeRow col row
    return some (← t.clearBelow opposite col row)

end Tableau

end ExactLinAlg
