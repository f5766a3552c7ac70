import ExactLinAlg.Vec.Command

/-!
# Vectors updated in place

The updates of a range of positions as computations on one vector in store, which they read and
overwrite. What has been overwritten before a failure stays so; hence all new entries are computed
before the first of them is written.
-/

namespace ExactLinAlg.Vec

/-- A computation on a vector in place. A failure keeps the changes made before it. -/
abbrev InPlace := EStateM Error Vec

namespace InPlace

/-- Copies as many values as there are positions from `lo` up to but not including `hi` over the
entries there, one after the other. -/
def overwrite (lo hi : Nat) (values : Vec) : InPlace Unit :=
  if values.length = hi - lo then
    (values.zipIdx lo).forM fun entry => modify (List.set · entry.2 entry.1)
  else
    throw .outOfRange

/-- Replaces the entries from `lo` up to but not including `hi` by what is computed from them. -/
def update (lo hi : Nat) (f : Vec → Except Error Vec) : InPlace Unit := do
  let part ← ofExcept (slice (← getThe Vec) lo hi)
  let updated ← ofExcept (f part)
  overwrite lo hi updated

/-- Adds `factor` times `w` to the entries from `lo` up to but not including `hi`. -/
def addScaled (lo hi : Nat) (factor : Fraction) (w : Vec) : InPlace Unit :=
  update lo hi (Vec.addScaled · factor w)

/-- Multiplies the entries from `lo` up to but not including `hi` by `factor`. -/
def scale (lo hi : Nat) (factor : Fraction) : InPlace Unit :=
  update lo hi (Vec.scale · factor)

/-- What a computation in place is as a command: its answer, and the vector after it. -/
def asCommand (p : InPlace Unit) (v : Vec) : Except Error (Answer × Vec) :=
  match p.run v with
  | .ok _ w => .ok (.done, w)
  | .error e _ => .error e

end InPlace

end ExactLinAlg.Vec
