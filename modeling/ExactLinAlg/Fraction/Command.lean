import ExactLinAlg.Fraction.Binary64
import ExactLinAlg.Random.Entries
import ExactLinAlg.Text

/-!
# Commands on a fraction

A command is one operation as a value, carried out on a current fraction. An answer that is a
fraction becomes the current one; every other answer, and every failure, leaves it.
-/

namespace ExactLinAlg.Fraction

/-- An operation on a current fraction, or a source of a new one. -/
inductive Command where
  | make (num den : Int64)
  | ofInt (value : Int64)
  | ofInt32 (value : Int32)
  | ofBinary64 (value : Binary64) (bound : Int64)
  | zero
  | one
  | add (other : Fraction)
  | sub (other : Fraction)
  | mul (other : Fraction)
  | div (other : Fraction)
  | neg
  | recip
  | abs
  | compare (other : Fraction)
  | equal (other : Fraction)
  | toBinary64
  | text
  | mixedText
  | describe
  | random (stream : WordStream) (count : Nat) (bound : UInt32)

/-- What a command on a fraction answers. -/
inductive Answer where
  | fraction (value : Fraction)
  | ordering (value : Ordering)
  | truth (value : Bool)
  | binary (value : Binary64)
  | text (value : String)
  /-- The parts of a fraction, whether it is zero or an integer, and its sign. -/
  | description (num den : Int64) (isZero isInteger : Bool) (signum : Int)
  /-- Random fractions, and the number of words of the stream that they took. -/
  | samples (values : List Fraction) (drawn : Nat)

namespace Command

/-- The answer of a command on the current fraction `a`. -/
def answer (a : Fraction) : Command → Except Error Answer
  | make num den => .fraction <$> Fraction.make num den
  | ofInt value => .fraction <$> Fraction.ofInt value
  | ofInt32 value => return .fraction (Fraction.ofInt32 value)
  | ofBinary64 value bound => .fraction <$> Fraction.ofBinary64 value bound
  | zero => return .fraction 0
  | one => return .fraction 1
  | add b => .fraction <$> Fraction.add a b
  | sub b => .fraction <$> Fraction.sub a b
  | mul b => .fraction <$> Fraction.mul a b
  | div b => .fraction <$> Fraction.div a b
  | neg => return .fraction (-a)
  | recip => .fraction <$> Fraction.recip a
  | abs => return .fraction a.abs
  | compare b => .ordering <$> Fraction.compare a b
  | equal b => return .truth (a = b)
  | toBinary64 => return .binary a.toBinary64
  | text => return .text a.text
  | mixedText => return .text a.mixedText
  | describe => return .description a.num a.den a.isZero a.isInteger a.signum
  | random stream count bound =>
    let (values, rest) := (Vec.random count bound).run stream
    return .samples values (rest.drawn - stream.drawn)

/-- The current fraction after a command that answered `result` on `a`. -/
def next (a : Fraction) (result : Except Error Answer) : Fraction :=
  match result with
  | .ok (.fraction b) => b
  | _ => a

end Command

end ExactLinAlg.Fraction
