import ExactLinAlg.Mat.Basic

/-!
# Products entry by entry

`Mat.mul` multiplies every row with every column. Here the product is written into a matrix of
zeros, entry after entry, and each entry is added up from entries that are read from both matrices.
-/

namespace ExactLinAlg.Mat

/-- The entry at `i`, `j` of the product of two matrices, added up from the left. -/
def accumulate (m n : Mat) (i j : Nat) : Except Error Fraction :=
  (List.range m.cols).foldlM (fun sum k => do
    let left ← m.entry i k
    let right ← n.entry k j
    Fraction.add sum (← Fraction.mul left right)) 0

/-- The matrix with the entry at `i`, `j` replaced, which the caller keeps inside the matrix. -/
def setEntry (m : Mat) (i j : Nat) (x : Fraction) : Except Error Mat := do
  return m.withLine i (← Vec.setEntry (← m.line i) j x)

/-- The entries of row `i` of a product, written into that row. -/
def mulRow (m n : Mat) (product : Mat) (i : Nat) : Except Error Mat :=
  (List.range n.cols).foldlM (fun product j => do
    product.setEntry i j (← m.accumulate n i j)) product

/-- The product of two matrices, written into a matrix of zeros. -/
def mulByEntries (m n : Mat) : Except Error Mat := do
  checkDims m.cols n.rows
  (List.range m.rows).foldlM (m.mulRow n) (zeros m.rows n.cols)

end ExactLinAlg.Mat
