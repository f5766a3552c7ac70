import ExactLinAlg.Mat.Command

/-!
# Commands in place

The commands on a matrix as computations on one matrix in store, which they read and overwrite.
What has been overwritten before a failure stays so; hence a row is computed completely before any
of its entries is written, all checks come before the first change, and an elimination works on a
copy that takes the place of the matrix only when it is complete.
-/

namespace ExactLinAlg

/-- A computation on a matrix in place. A failure keeps the changes made before it. -/
abbrev InPlace := EStateM Error Mat

/-- The row at position `source`, and the row at position `target`. Different rows are taken from
the two parts of the matrix before and from the later one of the two positions. -/
def Mat.linePair (m : Mat) (source target : Nat) : Except Error (Vec × Vec) :=
  if source < target then do
    let (head, tail) ← splitLines target
    return (← pick head source, ← pick tail 0)
  else if target < source then do
    let (head, tail) ← splitLines source
    return (← pick tail 0, ← pick head target)
  else do
    let row ← m.line source
    return (row, ← m.line target)
where
  /-- The rows before position `i`, and those from there on. -/
  splitLines (i : Nat) : Except Error (List Vec × List Vec) :=
    if i ≤ m.data.length then .ok (m.data.splitAt i) else .error .outOfRange
  /-- One of some rows. -/
  pick (part : List Vec) (i : Nat) : Except Error Vec :=
    match part[i]? with
    | some row => .ok row
    | none => .error .outOfRange

namespace InPlace

/-- What is computed from the matrix, which stays as it is. -/
def reads {α : Type} (f : Mat → Except Error α) : InPlace α := do
  match f (← get) with
  | .ok a => return a
  | .error e => throw e

/-- Overwrites the entry at `i`, `j`; nothing is written outside the matrix. -/
def writeEntry (i j : Nat) (x : Fraction) : InPlace Unit :=
  modify fun m => m.withLine i (List.set (m.data.getD i []) j x)

/-- Overwrites the row at position `i`, one entry after the other. -/
def overwriteLine (i : Nat) (values : Vec) : InPlace Unit :=
  values.zipIdx.forM fun entry => writeEntry i entry.2 entry.1

/-- Puts a row in the place of the row at position `i`, which is handed out. -/
def replaceLine (i : Nat) (row : Vec) : InPlace Vec := do
  let old ← reads (·.line i)
  modify (·.withLine i row)
  return old

/-- Does something on a copy, which takes the place of the matrix if nothing fails. -/
def onCopy {α : Type} (p : InPlace α) : InPlace α := do
  match p.run (← get) with
  | .ok a m =>
    set m
    return a
  | .error e _ => throw e

/-! ## Changes of entries and rows -/

/-- Writes the entry at `i`, `j`. -/
def setAt (i j : Nat) (x : Fraction) : InPlace Unit := do
  reads fun m => checkIndex i m.rows
  reads fun m => checkIndex j m.cols
  let _ ← reads (·.entry i j)
  writeEntry i j x

/-- Replaces the row at position `i`, and gives the old one. -/
def setRow (i : Nat) (row : Vec) : InPlace Vec := do
  reads fun m => checkIndex i m.rows
  reads fun m => checkDims m.cols row.length
  replaceLine i row

/-- Replaces all rows, and gives the old ones. -/
def replaceRows (data : List Vec) : InPlace (List Vec) := do
  reads fun m => checkDims m.rows data.length
  data.forM fun row => reads fun m => checkDims m.cols row.length
  let old ← get
  set { old with data }
  return old.data

/-! ## Row operations -/

/-- Exchanges two rows. -/
def swapRows (i j : Nat) : InPlace Unit := do
  let upper ← reads (·.line i)
  let lower ← reads (·.line j)
  modify (·.withLine i lower)
  modify (·.withLine j upper)

/-- Multiplies a row by a factor. -/
def scaleRow (factor : Fraction) (i : Nat) : InPlace Unit := do
  let row ← reads (·.line i)
  let updated ← reads fun _ => Vec.scale row factor
  overwriteLine i updated

/-- Adds a multiple of the row `source` to the row `target`. -/
def addScaledRow (factor : Fraction) (source target : Nat) : InPlace Unit := do
  let (added, row) ← reads (·.linePair source target)
  let updated ← reads fun _ => Vec.addScaled row factor added
  overwriteLine target updated

/-- Carries out a row operation. -/
def rowOp : RowOp → InPlace Unit
  | .swap i j => swapRows i j
  | .scale factor i => scaleRow factor i
  | .addScaled factor source target => addScaledRow factor source target

/-! ## Elimination -/

/-- Moves the pivot of column `col` into row `row`, and tells whether there is one. -/
def fetchPivot (col row : Nat) : InPlace Bool := do
  match ← reads fun m => (m.selectPivot col row).outcome with
  | none => return false
  | some i =>
    if i ≠ row then
      swapRows row i
    return true

/-- Divides row `row` by its entry in column `col`. -/
def normalizeRow (col row : Nat) : InPlace Unit := do
  let pivot ← reads (·.entry row col)
  let factor ← reads fun _ => pivot.recip
  scaleRow factor row

/-- Clears the entry of row `target` in column `col` by row `row`, which has a one there. -/
def clearEntry (col row target : Nat) : InPlace Unit := do
  let entry ← reads (·.entry target col)
  unless entry.isZero do
    let factor ← reads fun _ => Tableau.opposite entry
    addScaledRow factor row target

/-- Brings column `col` into echelon form from row `row` on, and tells whether it has a pivot. -/
def reduceColumn (col row : Nat) : InPlace Bool := do
  if ← fetchPivot col row then
    normalizeRow col row
    let m ← get
    (List.range' (row + 1) (m.rows - (row + 1))).forM (clearEntry col row)
    return true
  else
    return false

/-- Extends an echelon form to one more column. -/
def advance (pivots : List Nat) (col : Nat) : InPlace (List Nat) := do
  if ← reduceColumn col pivots.length then
    return pivots ++ [col]
  else
    return pivots

/-- Brings the matrix into echelon form, the reduced one if `full`, and gives the columns of the
pivots. -/
def eliminate (full : Bool) : InPlace (List Nat) := do
  let m ← get
  let pivots ← (List.range m.cols).foldlM advance []
  if full then
    pivots.zipIdx.reverse.forM fun pivot =>
      (List.range pivot.2).forM (clearEntry pivot.1 pivot.2)
  return pivots

/-! ## Answers -/

/-- Answers from the matrix. -/
def query {α : Type} (f : Mat → Except Error α) (answer : α → Mat.Answer) : InPlace Mat.Answer := do
  return answer (← reads f)

/-- Answers with another matrix, which takes the place of the current one if it is kept. -/
def produce (keep : Bool) (f : Mat → Except Error Mat) : InPlace Mat.Answer := do
  let result ← reads f
  if keep then
    set result
  return .matrix result

end InPlace

namespace Mat.Command

open InPlace

/-- Carries out a command in place. -/
def perform : Command → InPlace Answer
  | describe => query .ok fun m => .description m.rows m.cols m.isSquare
  | get i j => query (·.get i j) .fraction
  | entry i j => query (·.entry i j) .fraction
  | set i j x => do
    setAt i j x
    return .done
  | row i => query (·.row i) .vector
  | setRow i values => return .vector (← InPlace.setRow i values)
  | replaceRows data => return .vectors (← InPlace.replaceRows data)
  | mulVec v => query (·.mulVec v) .vector
  | solve b => query (fun m => (m.solve b).outcome) .vector
  | determinant => query (fun m => m.determinant.outcome) .fraction
  | rank => query (fun m => m.rank.outcome) .count
  | gauss full => return .columns (← onCopy (eliminate full))
  | text => query .ok fun m => .text m.text
  | equal other => query .ok fun m => .truth (m = other)
  | rowOp op => do
    InPlace.rowOp op
    return .done
  | mul right keep => produce keep (·.mul right)
  | mulLeft left keep => produce keep (left.mul ·)
  | transposed keep => produce keep fun m => .ok m.transposed
  | inverse keep => produce keep fun m => m.inverse.outcome
  | hstack right keep => produce keep (·.hstack right)

end Mat.Command

end ExactLinAlg
