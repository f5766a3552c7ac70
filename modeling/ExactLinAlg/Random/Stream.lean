/-!
# Drawing numbers from a stream of words

All randomness comes from a stream of unsigned 64-bit words. A number below `range` is drawn
as the upper half of the product of a word with `range`; where the lower half leaves a bias,
the upper half of a second product may carry into it. The carry never leads out of the range
(`succ_lt_of_carry`), which the type of `below` records.
-/

namespace ExactLinAlg

/-- A stream of words of which the first `drawn` have been handed out. -/
structure WordStream where
  word : Nat → UInt64
  drawn : Nat

namespace WordStream

/-- The stream that repeats a list of words for ever, and consists of zeros if there are none. -/
def cycle (words : Array UInt64) : WordStream where
  word i := words.getD (i % words.size) 0
  drawn := 0

/-- The next word of the stream. -/
def next : StateM WordStream UInt64 :=
  modifyGet fun s => (s.word s.drawn, { s with drawn := s.drawn + 1 })

/-- A 64-bit number, which takes one word. -/
def draw64 : StateM WordStream (Fin UInt64.size) := return (← next).toFin

/-- A 32-bit number, which takes the lower half of one word. -/
def draw32 : StateM WordStream (Fin UInt32.size) := return (← next).toUInt32.toFin

/-- A truth value, the highest bit of a 32-bit number. -/
def drawBool : StateM WordStream Bool := return 0x80000000 ≤ (← draw32).val

/-! ## Uniform numbers -/

/-- The upper half of a product stays below the range. -/
theorem div_lt_of_draw {size range : Nat} (hrange : 0 < range) (w : Fin size) :
    w * range / size < range := by
  rw [Nat.div_lt_iff_lt_mul (Nat.zero_lt_of_lt w.isLt), Nat.mul_comm range]
  exact Nat.mul_lt_mul_of_pos_right w.isLt hrange

/-- Where the lower half leaves a bias, the upper half has room for a carry. -/
theorem succ_lt_of_carry {size range : Nat} (hrange : 0 < range) (w : Fin size)
    (hbias : size - range < w * range % size) : w * range / size + 1 < range := by
  have hlt := div_lt_of_draw hrange w
  have hsplit := Nat.div_add_mod (w * range) size
  have hw : w * range + range ≤ size * range := by
    rw [← Nat.succ_mul]
    exact Nat.mul_le_mul_right range w.isLt
  by_cases htop : w * range / size + 1 = range
  · have hmul : size * (w * range / size) + size = size * range := by
      rw [← Nat.mul_succ, Nat.succ_eq_add_one, htop]
    omega
  · omega

/-- A number below `range`, from one or two draws of numbers below `size`. -/
def below {size : Nat} (draw : StateM WordStream (Fin size)) (range : Nat) (hrange : 0 < range) :
    StateM WordStream (Fin range) := do
  let first ← draw
  if hbias : size - range < first * range % size then
    let second ← draw
    if size ≤ first * range % size + second * range / size then
      return ⟨first * range / size + 1, succ_lt_of_carry hrange first hbias⟩
    else
      return ⟨first * range / size, div_lt_of_draw hrange first⟩
  else
    return ⟨first * range / size, div_lt_of_draw hrange first⟩

/-- An integer from `low` to `high`, both included. -/
def between {size : Nat} (draw : StateM WordStream (Fin size)) (low high : Int)
    (h : low ≤ high) : StateM WordStream { n : Int // low ≤ n ∧ n ≤ high } := do
  let offset ← below draw (high - low + 1).toNat (by omega)
  return ⟨low + offset, by omega⟩

end WordStream

end ExactLinAlg
