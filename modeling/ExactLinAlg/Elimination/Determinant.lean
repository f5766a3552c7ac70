import ExactLinAlg.Elimination.Tableau

/-!
# The determinant

Adding a multiple of one row to another keeps the determinant and exchanging two rows negates
it, so the determinant is, up to sign, the product of the diagonal of a triangular form.
-/

namespace ExactLinAlg

namespace Tableau

/-- The multiple of a row with the given pivot that clears an entry. -/
def oppositeQuotient (pivot entry : Fraction) : Except Error Fraction :=
  return -(← Fraction.div entry pivot)

/-- Clears the entries below the diagonal in the given columns, and tells whether the number of
exchanges of rows is odd; `none` if a column has no pivot. -/
def triangulate (t : Tableau) (odd : Bool) : List Nat → Traced (Option (Tableau × Bool))
  | [] => return some (t, odd)
  | k :: rest => do
    match ← t.fetchPivot k k with
    | none =>
      Traced.report (.zeroDeterminant k)
      return none
    | some (t, swapped) =>
      let pivot ← t.main.entry k k
      let t ← t.clearBelow (oppositeQuotient pivot) k k
      t.triangulate (odd != swapped) rest

end Tableau

namespace Mat

/-- The product of the first `n` entries of the diagonal, multiplied from the left to `start`. -/
def diagonalProduct (m : Mat) (n : Nat) (start : Fraction) : Except Error Fraction :=
  (List.range n).foldlM (fun product k => do Fraction.mul product (← m.entry k k)) start

/-- The determinant of a square matrix, zero if some column has no pivot. -/
def determinant (m : Mat) : Traced Fraction := do
  m.checkSquare
  match ← Tableau.triangulate ⟨m, none⟩ false (List.range m.rows) with
  | none => return 0
  | some (t, odd) => t.main.diagonalProduct m.rows (if odd then -1 else 1)

end Mat

end ExactLinAlg
