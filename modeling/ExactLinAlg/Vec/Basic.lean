import ExactLinAlg.Fraction.Arithmetic

/-!
# Vectors of fractions

A vector is the list of its entries. Operations on two vectors fail with a dimension mismatch
if their lengths differ, and pass on every failure of the arithmetic on entries. Access comes
in two forms: `get` and `set` report a position outside the vector with its length, while
`entry` and `setEntry` leave it to the caller to stay inside.
-/

namespace ExactLinAlg

/-- A vector of fractions. -/
abbrev Vec := List Fraction

namespace Vec

/-! ## Construction -/

/-- The vector of `n` zeros. -/
def zeros (n : Nat) : Vec := List.replicate n 0

/-- The vector of length `n` whose entry at position `i` is computed by `f i`, in order. -/
def buildM {m : Type → Type} [Monad m] (n : Nat) (f : Nat → m Fraction) : m Vec :=
  (List.range n).mapM f

/-- The vector of length `n` whose entry at position `i` is `f i`. -/
def build (n : Nat) (f : Nat → Fraction) : Vec := (List.range n).map f

/-- The vector of some integers. -/
def ofInts (values : List Int64) : Except Error Vec := values.mapM Fraction.ofInt

/-! ## Entries -/

/-- The entry at position `i`. -/
def get (v : Vec) (i : Nat) : Except Error Fraction :=
  match v[i]? with
  | some x => .ok x
  | none => .error (.indexOutOfBounds i v.length)

/-- The vector with the entry at position `i` replaced. -/
def set (v : Vec) (i : Nat) (x : Fraction) : Except Error Vec :=
  if i < v.length then .ok (List.set v i x) else .error (.indexOutOfBounds i v.length)

/-- The entry at position `i`, which the caller keeps inside the vector. -/
def entry (v : Vec) (i : Nat) : Except Error Fraction :=
  match v[i]? with
  | some x => .ok x
  | none => .error .outOfRange

/-- The vector with an entry replaced at a position that the caller keeps inside it. -/
def setEntry (v : Vec) (i : Nat) (x : Fraction) : Except Error Vec :=
  if i < v.length then .ok (List.set v i x) else .error .outOfRange

/-- Whether every entry is zero. -/
def isZero (v : Vec) : Bool := v.all Fraction.isZero

/-! ## Arithmetic -/

/-- The vector of the results of an operation on entries at equal positions. -/
def combine (op : Fraction → Fraction → Except Error Fraction) (v w : Vec) : Except Error Vec := do
  checkDims v.length w.length
  (v.zip w).mapM fun pair => op pair.1 pair.2

/-- The sum of two vectors. -/
def add (v w : Vec) : Except Error Vec := combine Fraction.add v w

/-- The difference of two vectors. -/
def sub (v w : Vec) : Except Error Vec := combine Fraction.sub v w

/-- The vector with every entry multiplied by `factor`. -/
def scale (v : Vec) (factor : Fraction) : Except Error Vec := v.mapM (Fraction.mul · factor)

/-- The sum of `v` and `factor` times `w`. -/
def addScaled (v : Vec) (factor : Fraction) (w : Vec) : Except Error Vec :=
  combine (fun a b => do Fraction.add a (← Fraction.mul factor b)) v w

/-- The sum of the products of entries at equal positions, added up from the left. -/
def dot (v w : Vec) : Except Error Fraction := do
  checkDims v.length w.length
  (v.zip w).foldlM (fun sum pair => do Fraction.add sum (← Fraction.mul pair.1 pair.2)) 0

/-! ## Order -/

/-- The order of two vectors at the first position where they differ; positions that only one
of them has are not compared. -/
def compareEntries : Vec → Vec → Except Error Ordering
  | a :: v, b :: w => do
    match ← Fraction.compare a b with
    | .eq => compareEntries v w
    | order => return order
  | _, _ => return .eq

/-- The lexicographic order of two vectors of the same length. -/
def lexCompare (v w : Vec) : Except Error Ordering := do
  checkDims v.length w.length
  compareEntries v w

/-- The order of the Euclidean norms of two vectors, whose lengths may differ, found by
comparing the squares of the norms. -/
def normCompare (v w : Vec) : Except Error Ordering := do
  let left ← dot v v
  let right ← dot w w
  Fraction.compare left right

/-! ## Ranges of positions -/

/-- The entries at the positions from `lo` up to but not including `hi`. -/
def slice (v : Vec) (lo hi : Nat) : Except Error Vec :=
  if lo ≤ hi ∧ hi ≤ v.length then .ok ((v.take hi).drop lo) else .error .outOfRange

/-- The vector with the entries from `lo` up to but not including `hi` replaced by `part`. -/
def splice (v : Vec) (lo hi : Nat) (part : Vec) : Vec := v.take lo ++ part ++ v.drop hi

end Vec

end ExactLinAlg
