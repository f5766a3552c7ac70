import ExactLinAlg.Elimination.Tableau

/-!
# Linear systems

A system is solved on the matrix of its coefficients with the right-hand side as one more
column. Elimination makes the coefficients triangular with ones on the diagonal, and the
unknowns follow from the last one to the first.
-/

namespace ExactLinAlg

namespace Tableau

/-- Makes column `k` the next column of a triangular form, unless the system is singular. -/
def reduceUnknown (t : Tableau) (k : Nat) : Traced Tableau := do
  match ← t.reduceColumn k k with
  | none =>
    Traced.report (.singularSystem k)
    Traced.fail .singular
  | some t => return t

end Tableau

namespace Mat

/-- The matrix with the entries of a vector as its only column. -/
def ofColumn (v : Vec) : Mat := ⟨v.length, 1, v.map fun x => [x]⟩

/-- The value of unknown `i` in front of the values of the unknowns after it, from row `i` of a
triangular system of `n` unknowns with ones on the diagonal. -/
def substituteRow (m : Mat) (n i : Nat) (known : Vec) : Except Error Vec := do
  let row ← m.line i
  let sum ← Vec.dot (← Vec.slice row (i + 1) n) known
  let x ← Fraction.sub (← Vec.entry row n) sum
  return x :: known

/-- The solution of a triangular system of `n` unknowns with ones on the diagonal. -/
def backSubstitute (m : Mat) (n : Nat) : Except Error Vec :=
  (List.range n).foldrM (m.substituteRow n) []

/-- The vector `x` for which the product of a square matrix with `x` is `b`. -/
def solve (m : Mat) (b : Vec) : Traced Vec := do
  m.checkSquare
  checkDims m.rows b.length
  let augmented ← m.hstack (ofColumn b)
  let t ← (List.range m.rows).foldlM Tableau.reduceUnknown ⟨augmented, none⟩
  t.main.backSubstitute m.rows

end Mat

end ExactLinAlg
