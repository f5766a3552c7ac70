import ExactLinAlg.Elimination.Determinant
import ExactLinAlg.Elimination.Gauss
import ExactLinAlg.Elimination.Solve
import ExactLinAlg.Text

/-!
# Commands on a matrix

A command is one operation as a value, carried out on a current matrix. A command that changes
the matrix in place, and one whose result is kept, leads to a new current matrix; every other
command, and every failure, leaves it.
-/

namespace ExactLinAlg.Mat

/-- An operation on a matrix. Those with a flag `keep` make their result the current matrix if
the flag is set. -/
inductive Command where
  | describe
  | get (i j : Nat)
  | entry (i j : Nat)
  | set (i j : Nat) (x : Fraction)
  | row (i : Nat)
  | setRow (i : Nat) (values : Vec)
  | replaceRows (data : List Vec)
  | mulVec (v : Vec)
  | solve (b : Vec)
  | determinant
  | rank
  | gauss (full : Bool)
  | text
  | equal (other : Mat)
  | rowOp (op : RowOp)
  | mul (right : Mat) (keep : Bool)
  | mulLeft (left : Mat) (keep : Bool)
  | transposed (keep : Bool)
  | inverse (keep : Bool)
  | hstack (right : Mat) (keep : Bool)

/-- What a command on a matrix answers. -/
inductive Answer where
  | done
  | fraction (value : Fraction)
  | vector (value : Vec)
  | vectors (values : List Vec)
  | matrix (value : Mat)
  | truth (value : Bool)
  | text (value : String)
  | count (value : Nat)
  /-- The columns of pivots. -/
  | columns (values : List Nat)
  /-- The dimensions of a matrix, and whether they are equal. -/
  | description (rows cols : Nat) (isSquare : Bool)

namespace Command

/-- The result `r` of a command as its answer, and as the current matrix if it is kept. -/
def keeping (m : Mat) (keep : Bool) (r : Mat) : Answer × Mat := (.matrix r, if keep then r else m)

/-- The answer of a command on the current matrix `m`, and the matrix after it. -/
def run (m : Mat) : Command → Traced (Answer × Mat)
  | describe => return (.description m.rows m.cols m.isSquare, m)
  | get i j => return (.fraction (← m.get i j), m)
  | entry i j => return (.fraction (← m.entry i j), m)
  | set i j x => return (.done, ← m.set i j x)
  | row i => return (.vector (← m.row i), m)
  | setRow i values => do
    let (old, changed) ← m.setRow i values
    return (.vector old, changed)
  | replaceRows data => do
    let (old, changed) ← m.replaceRows data
    return (.vectors old, changed)
  | mulVec v => return (.vector (← m.mulVec v), m)
  | solve b => return (.vector (← m.solve b), m)
  | determinant => return (.fraction (← m.determinant), m)
  | rank => return (.count (← m.rank), m)
  | gauss full => do
    let (pivots, reduced) ← m.gauss full
    return (.columns pivots, reduced)
  | text => return (.text m.text, m)
  | equal other => return (.truth (m = other), m)
  | rowOp op => return (.done, ← op.perform m)
  | mul right keep => return keeping m keep (← m.mul right)
  | mulLeft left keep => return keeping m keep (← left.mul m)
  | transposed keep => return keeping m keep m.transposed
  | inverse keep => return keeping m keep (← m.inverse)
  | hstack right keep => return keeping m keep (← m.hstack right)

/-- The current matrix after a command that came out as `result` on `m`. -/
def next (m : Mat) (result : Except Error (Answer × Mat)) : Mat :=
  match result with
  | .ok (_, n) => n
  | .error _ => m

end Command

end ExactLinAlg.Mat
