import ExactLinAlg.Text

/-!
# Commands on a vector

A command is one operation as a value, carried out on a current vector or on a range of its
positions. A command that changes the vector in place, and one whose result is kept, leads to a
new current vector; every other command, and every failure, leaves it.
-/

namespace ExactLinAlg.Vec

/-- An operation on a vector. Those with a flag `keep` make their result the current vector if
the flag is set. -/
inductive Action where
  | describe
  | elements
  | reversed
  | copy (keep : Bool)
  | text
  | get (i : Nat)
  | entry (i : Nat)
  | set (i : Nat) (x : Fraction)
  | setEntry (i : Nat) (x : Fraction)
  | add (other : Vec) (keep : Bool)
  | sub (other : Vec) (keep : Bool)
  | scale (factor : Fraction) (keep : Bool)
  | dot (other : Vec)
  | lexCompare (other : Vec)
  | normCompare (other : Vec)
  | equal (other : Vec)
  | addScaledInPlace (factor : Fraction) (other : Vec)
  | scaleInPlace (factor : Fraction)

/-- What a command on a vector answers. -/
inductive Answer where
  | done
  | fraction (value : Fraction)
  | vector (value : Vec)
  | ordering (value : Ordering)
  | truth (value : Bool)
  | text (value : String)
  /-- The length of a vector, and whether it is empty or all zeros. -/
  | description (length : Nat) (isEmpty isZero : Bool)

/-- What becomes of the current vector. -/
inductive Effect where
  /-- It stays as it is. -/
  | unchanged
  /-- The part that the action worked on is replaced by one of the same length. -/
  | part (value : Vec)
  /-- It is replaced as a whole. -/
  | whole (value : Vec)

namespace Effect

/-- The effect of a result that is kept or not. -/
def ofKeep (keep : Bool) (value : Vec) : Effect := if keep then whole value else unchanged

/-- The current vector after an effect of an action on the range from `lo` to `hi`. -/
def applyTo (v : Vec) (lo hi : Nat) : Effect → Vec
  | unchanged => v
  | part value => splice v lo hi value
  | whole value => value

end Effect

namespace Action

/-- The answer of an action on the part `v` of the current vector, and its effect. -/
def run (v : Vec) : Action → Except Error (Answer × Effect)
  | describe => return (.description v.length v.isEmpty (Vec.isZero v), .unchanged)
  | elements => return (.vector v, .unchanged)
  | reversed => return (.vector v.reverse, .unchanged)
  | copy keep => return (.vector v, .ofKeep keep v)
  | text => return (.text (Vec.text v), .unchanged)
  | get i => return (.fraction (← Vec.get v i), .unchanged)
  | entry i => return (.fraction (← Vec.entry v i), .unchanged)
  | set i x => return (.done, .part (← Vec.set v i x))
  | setEntry i x => return (.done, .part (← Vec.setEntry v i x))
  | add other keep => do
    let sum ← Vec.add v other
    return (.vector sum, .ofKeep keep sum)
  | sub other keep => do
    let difference ← Vec.sub v other
    return (.vector difference, .ofKeep keep difference)
  | scale factor keep => do
    let product ← Vec.scale v factor
    return (.vector product, .ofKeep keep product)
  | dot other => return (.fraction (← Vec.dot v other), .unchanged)
  | lexCompare other => return (.ordering (← Vec.lexCompare v other), .unchanged)
  | normCompare other => return (.ordering (← Vec.normCompare v other), .unchanged)
  | equal other => return (.truth (v = other), .unchanged)
  | addScaledInPlace factor other => return (.done, .part (← Vec.addScaled v factor other))
  | scaleInPlace factor => return (.done, .part (← Vec.scale v factor))

end Action

/-- An action on the range of positions from `lo` up to but not including `hi`, or on the whole
vector if there is no range. -/
structure Command where
  range : Option (Nat × Nat)
  action : Action

namespace Command

/-- The answer of a command on the current vector `v`, and the vector after it. -/
def run (v : Vec) (c : Command) : Except Error (Answer × Vec) := do
  let (lo, hi) := c.range.getD (0, v.length)
  let (answer, effect) ← c.action.run (← slice v lo hi)
  return (answer, effect.applyTo v lo hi)

/-- The current vector after a command that came out as `result` on `v`. -/
def next (v : Vec) (result : Except Error (Answer × Vec)) : Vec :=
  match result with
  | .ok (_, w) => w
  | .error _ => v

end Command

end ExactLinAlg.Vec
