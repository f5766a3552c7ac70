import ExactLinAlg.Fraction.Convergents

/-!
# The search for the nearest convergent

The convergents of a positive number `x` are generated one after the other, and the nearest one so
far is kept together with its distance. The two latest convergents and what is still to be expanded
give the next one. The search ends where the next convergent does not fit into words or exceeds the
bound on the denominator, and after a convergent that leaves nothing to be expanded.
-/

namespace ExactLinAlg

/-- What a search has found so far. -/
structure Search where
  /-- The convergent before the latest one. -/
  prev : Convergent
  /-- The latest convergent. -/
  last : Convergent
  /-- The nearest convergent, the first of several equally near ones. -/
  best : Convergent
  /-- The distance of the nearest convergent, if there has been one. -/
  least : Option Rat

namespace Search

/-- The search before the first convergent. -/
def start : Search := ⟨⟨0, 1⟩, ⟨1, 0⟩, ⟨0, 1⟩, none⟩

/-- The convergent that comes next where `rest` is still to be expanded, if it fits into words and
its denominator is at most `bound`. -/
def next? (bound : Int64) (s : Search) (rest : Rat) : Option Convergent :=
  match Convergent.next s.prev s.last rest with
  | .ok c => if c.den ≤ bound then some c else none
  | .error _ => none

/-- The search after one more convergent, which is kept if it is nearer to `x` than all others. -/
def visit (x : Rat) (s : Search) (c : Convergent) : Search :=
  let distance := Convergent.distance x c
  if s.least.all (distance < ·) then
    ⟨s.last, c, c, some distance⟩
  else
    ⟨s.last, c, s.best, s.least⟩

/-- A search for the convergent nearest to `x`, from a state in which `rest` is still to be expanded
to the end: the convergents that it generates on its way, and the state in which it ends. -/
inductive Run (bound : Int64) (x : Rat) : Search → Rat → List Convergent → Search → Prop
  /-- No further convergent is allowed. -/
  | stop {s : Search} {rest : Rat} (hnext : s.next? bound rest = none) : Run bound x s rest [] s
  /-- A convergent leaves nothing to be expanded. -/
  | finish {s : Search} {rest : Rat} {c : Convergent} (hnext : s.next? bound rest = some c)
      (hfract : Convergent.fract rest = 0) : Run bound x s rest [c] (s.visit x c)
  /-- A convergent leaves something, whose reciprocal is to be expanded. -/
  | round {s t : Search} {rest : Rat} {c : Convergent} {cs : List Convergent}
      (hnext : s.next? bound rest = some c) (hfract : Convergent.fract rest ≠ 0)
      (hrun : Run bound x (s.visit x c) (Convergent.reciprocal (Convergent.fract rest)) cs t) :
      Run bound x s rest (c :: cs) t

end Search

end ExactLinAlg
