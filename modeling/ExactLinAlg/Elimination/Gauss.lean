import ExactLinAlg.Elimination.Tableau

/-!
# Echelon forms, rank and inverse

The forward pass brings a matrix into echelon form with pivots one, and the upward pass clears
the entries above the pivots. The number of pivots is the rank, and a companion that starts as
the identity becomes the inverse.
-/

namespace ExactLinAlg

namespace Tableau

/-- Extends an echelon form to one more column. The pivots found so far, given by their columns,
occupy as many rows at the top. -/
def advance (state : Tableau × List Nat) (col : Nat) : Traced (Tableau × List Nat) := do
  let (t, pivots) := state
  match ← t.reduceColumn col pivots.length with
  | none => return (t, pivots)
  | some t => return (t, pivots ++ [col])

/-- The echelon form, with the columns of the pivots from left to right. -/
def forward (t : Tableau) : Traced (Tableau × List Nat) :=
  (List.range t.main.cols).foldlM advance (t, [])

/-- Clears the entries above the pivots of an echelon form, from the last pivot to the first. -/
def upward (t : Tableau) (pivots : List Nat) : Traced Tableau :=
  pivots.zipIdx.reverse.foldlM (fun t pivot => t.clearAbove opposite pivot.1 pivot.2) t

/-- The echelon form, or the reduced one if `full`, with the columns of the pivots. -/
def eliminate (full : Bool) (t : Tableau) : Traced (Tableau × List Nat) := do
  let (t, pivots) ← t.forward
  if full then
    return (← t.upward pivots, pivots)
  else
    return (t, pivots)

end Tableau

namespace Mat

/-- The columns of the pivots and the echelon form of a matrix, the reduced one if `full`. -/
def gauss (m : Mat) (full : Bool) : Traced (List Nat × Mat) := do
  let (t, pivots) ← Tableau.eliminate full ⟨m, none⟩
  return (pivots, t.main)

/-- The rank of a matrix, the number of pivots of its echelon form. -/
def rank (m : Mat) : Traced Nat := do
  let (pivots, _) ← m.gauss false
  return pivots.length

/-- The inverse of a square matrix. Elimination turns a matrix of full rank into the identity,
and the identity beside it into the inverse. -/
def inverse (m : Mat) : Traced Mat := do
  m.checkSquare
  let (t, pivots) ← Tableau.eliminate true ⟨m, some (identity m.cols)⟩
  if pivots.length ≠ m.cols then
    Traced.report (.notInvertible pivots.length m.cols)
    Traced.fail .singular
  else
    return t.companion.getD t.main

end Mat

end ExactLinAlg
