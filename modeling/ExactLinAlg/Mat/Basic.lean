import ExactLinAlg.Vec.Basic

/-!
# Matrices of fractions

A matrix is a list of rows together with its two dimensions, so that a matrix without rows still
has a number of columns and one without columns a number of rows. `Mat.WellFormed` says that
the rows agree with the dimensions; every operation of the library keeps it.
-/

namespace ExactLinAlg

/-- A matrix of fractions. -/
structure Mat where
  /-- The number of rows. -/
  rows : Nat
  /-- The number of columns, which is the length of every row. -/
  cols : Nat
  /-- The rows from top to bottom. -/
  data : List Vec
deriving DecidableEq

namespace Mat

/-- The rows of a matrix agree with its dimensions. -/
structure WellFormed (m : Mat) : Prop where
  length_data : m.data.length = m.rows
  length_row : ∀ row ∈ m.data, row.length = m.cols

/-! ## Construction -/

/-- The matrix whose entry at `i`, `j` is computed by `f i j`, row after row. -/
def buildM {m : Type → Type} [Monad m] (rows cols : Nat) (f : Nat → Nat → m Fraction) : m Mat := do
  let data ← (List.range rows).mapM fun i => Vec.buildM cols (f i)
  return ⟨rows, cols, data⟩

/-- The matrix whose entry at `i`, `j` is `f i j`. -/
def build (rows cols : Nat) (f : Nat → Nat → Fraction) : Mat :=
  ⟨rows, cols, (List.range rows).map fun i => Vec.build cols (f i)⟩

/-- The matrix of zeros. -/
def zeros (rows cols : Nat) : Mat := ⟨rows, cols, List.replicate rows (Vec.zeros cols)⟩

/-- The identity matrix. -/
def identity (size : Nat) : Mat := build size size fun i j => if i = j then 1 else 0

/-- The matrix of some rows, which must have the length of the first one. -/
def ofRows (data : List Vec) : Except Error Mat := do
  let cols := (data.head?.getD []).length
  data.forM fun row => checkDims cols row.length
  return ⟨data.length, cols, data⟩

/-- The matrix of some rows of integers. -/
def ofInts (data : List (List Int64)) : Except Error Mat := do
  ofRows (← data.mapM Vec.ofInts)

/-! ## Entries and rows -/

/-- The row at position `i`, which the caller keeps inside the matrix. -/
def line (m : Mat) (i : Nat) : Except Error Vec :=
  match m.data[i]? with
  | some row => .ok row
  | none => .error .outOfRange

/-- The entry at `i`, `j`, which the caller keeps inside the matrix. -/
def entry (m : Mat) (i j : Nat) : Except Error Fraction := do
  Vec.entry (← m.line i) j

/-- The matrix with the row at position `i` replaced; nothing is replaced outside it. -/
def withLine (m : Mat) (i : Nat) (row : Vec) : Mat := { m with data := m.data.set i row }

/-- The entry at `i`, `j`. -/
def get (m : Mat) (i j : Nat) : Except Error Fraction := do
  checkIndex i m.rows
  Vec.get (← m.line i) j

/-- The matrix with the entry at `i`, `j` replaced. -/
def set (m : Mat) (i j : Nat) (x : Fraction) : Except Error Mat := do
  checkIndex i m.rows
  checkIndex j m.cols
  return m.withLine i (← Vec.setEntry (← m.line i) j x)

/-- The row at position `i`. -/
def row (m : Mat) (i : Nat) : Except Error Vec := do
  checkIndex i m.rows
  m.line i

/-- The row at position `i`, and the matrix with that row replaced. -/
def setRow (m : Mat) (i : Nat) (row : Vec) : Except Error (Vec × Mat) := do
  checkIndex i m.rows
  checkDims m.cols row.length
  return (← m.line i, m.withLine i row)

/-- The rows of a matrix, and the matrix with all of them replaced. -/
def replaceRows (m : Mat) (data : List Vec) : Except Error (List Vec × Mat) := do
  checkDims m.rows data.length
  data.forM fun row => checkDims m.cols row.length
  return (m.data, { m with data })

/-- Whether there are as many rows as columns. -/
def isSquare (m : Mat) : Bool := m.rows == m.cols

/-- Succeeds on square matrices. -/
def checkSquare (m : Mat) : Except Error Unit :=
  if m.rows = m.cols then .ok () else .error (.notSquare m.rows m.cols)

/-! ## Products and arrangements -/

/-- The column at position `j` from top to bottom. -/
def column (m : Mat) (j : Nat) : Vec := m.data.map fun row => row.getD j 0

/-- The product of a matrix and a vector. -/
def mulVec (m : Mat) (v : Vec) : Except Error Vec := do
  checkDims m.cols v.length
  m.data.mapM fun row => Vec.dot row v

/-- The product of two matrices. -/
def mul (m n : Mat) : Except Error Mat := do
  checkDims m.cols n.rows
  let columns := (List.range n.cols).map n.column
  let data ← m.data.mapM fun row => columns.mapM (Vec.dot row)
  return ⟨m.rows, n.cols, data⟩

/-- The matrix with rows and columns exchanged. -/
def transposed (m : Mat) : Mat := ⟨m.cols, m.rows, (List.range m.cols).map m.column⟩

/-- The matrix with the columns of `n` to the right of those of `m`. -/
def hstack (m n : Mat) : Except Error Mat := do
  checkDims m.rows n.rows
  return ⟨m.rows, m.cols + n.cols, List.zipWith (· ++ ·) m.data n.data⟩

end Mat

end ExactLinAlg
