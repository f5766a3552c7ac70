import ExactLinAlg.Word

/-!
# Fractions of 64-bit words

A `Fraction` is a reduced fraction of two words with a positive denominator and a numerator
other than `-2^63`, so two fractions are equal exactly when their values are, and every fraction
has an opposite. `Fraction.make` reads a pair of words as a fraction.
-/

namespace ExactLinAlg

/-- A fraction in lowest terms whose numerator and denominator are words. -/
structure Fraction where
  /-- The numerator, which carries the sign. -/
  num : Int64
  /-- The denominator. -/
  den : Int64
  den_pos : 0 < den.toInt
  coprime : Nat.Coprime num.toInt.natAbs den.toInt.natAbs
  num_ne_min : num ≠ Int64.minValue
deriving DecidableEq

namespace Fraction

/-- Fractions with the same numerator and denominator are the same. -/
theorem ext_words {a b : Fraction} (hn : a.num = b.num) (hd : a.den = b.den) : a = b := by
  cases a
  cases b
  cases hn
  cases hd
  rfl

/-- A numerator and a denominator that belong to a fraction. -/
structure Canonical (num den : Int64) : Prop where
  den_pos : 0 < den.toInt
  coprime : Nat.gcd num.toInt.natAbs den.toInt.natAbs = 1
  num_ne_min : num.toInt ≠ -9223372036854775808

theorem canonical (a : Fraction) : Canonical a.num a.den :=
  ⟨a.den_pos, a.coprime, fun h => a.num_ne_min (Int64.toInt.inj h)⟩

/-- The rational number that a fraction stands for. -/
def toRat (a : Fraction) : Rat := mkRat a.num.toInt a.den.toInt.toNat

/-! ## Bounds on the parts -/

theorem den_le (a : Fraction) : a.den.toInt ≤ 9223372036854775807 := a.den.toInt_le

theorem num_le (a : Fraction) : a.num.toInt ≤ 9223372036854775807 := a.num.toInt_le

/-- The numerators are symmetric about zero. -/
theorem neg_le_num (a : Fraction) : -9223372036854775807 ≤ a.num.toInt := by
  have h := (Word.inRange_iff.1 (Word.inRange_toInt a.num)).1
  have hne : a.num.toInt ≠ -9223372036854775808 := fun h' => a.num_ne_min (Int64.toInt.inj h')
  omega

/-! ## Reading a pair of words -/

/-- The greatest common divisor of a numerator and a denominator, as a signed word. -/
def commonDivisor (n d : Int64) : Int64 :=
  (Word.gcd (Word.magnitude n) (Word.magnitude d)).toInt64

/-- A divisor of a positive word fits into a signed word. -/
theorem toInt_commonDivisor {n d : Int64} (hd : 0 < d.toInt) :
    (commonDivisor n d).toInt = Nat.gcd n.toInt.natAbs d.toInt.natAbs := by
  have hle : Nat.gcd n.toInt.natAbs d.toInt.natAbs ≤ d.toInt.natAbs :=
    Nat.gcd_le_right _ (by omega)
  have hlt : Nat.gcd n.toInt.natAbs d.toInt.natAbs < 2 ^ 63 := by
    have h := d.toInt_le
    rw [Int64.toInt_maxValue] at h
    omega
  have hword : (commonDivisor n d) = Int64.ofNat (Nat.gcd n.toInt.natAbs d.toInt.natAbs) := by
    rw [commonDivisor, ← Word.toNat_magnitude, ← Word.toNat_magnitude, ← Word.toNat_gcd,
      ← UInt64.toInt64_ofNat', UInt64.ofNat_toNat]
  rw [hword, Int64.toInt_ofNat_of_lt hlt]

theorem toInt_commonDivisor_pos {n d : Int64} (hd : 0 < d.toInt) :
    0 < (commonDivisor n d).toInt := by
  rw [toInt_commonDivisor hd]
  exact Int.natCast_pos.2 (Nat.gcd_pos_of_pos_right _ (by omega))

/-- Dividing a word by the common divisor is exact division of the integers. -/
theorem toInt_div_commonDivisor {n d w : Int64} (hd : 0 < d.toInt) :
    (w / commonDivisor n d).toInt = w.toInt.tdiv (Nat.gcd n.toInt.natAbs d.toInt.natAbs) := by
  have hpos := toInt_commonDivisor_pos (n := n) hd
  rw [Int64.toInt_div_of_ne_right _ _ (fun h => by simp [h] at hpos), toInt_commonDivisor hd]

/-- Only the least word can be reduced to the least word. -/
theorem div_commonDivisor_ne_min {n d : Int64} (hd : 0 < d.toInt) (hn : n ≠ Int64.minValue) :
    n / commonDivisor n d ≠ Int64.minValue := by
  intro h
  have hmin := congrArg Int64.toInt h
  rw [toInt_div_commonDivisor hd, Int64.toInt_minValue] at hmin
  have hle := Int.natAbs_tdiv_le_natAbs n.toInt (Nat.gcd n.toInt.natAbs d.toInt.natAbs)
  have hr := Word.inRange_iff.1 (Word.inRange_toInt n)
  have hne : n.toInt ≠ -9223372036854775808 := fun h' => hn (Int64.toInt.inj h')
  omega

/-- `n / d` in lowest terms, for a positive `d` and where the reduced numerator is not the
least word. -/
def reduce (n d : Int64) (hd : 0 < d.toInt) (hn : n / commonDivisor n d ≠ Int64.minValue) :
    Fraction where
  num := n / commonDivisor n d
  den := d / commonDivisor n d
  den_pos := by
    have hdvd : Nat.gcd n.toInt.natAbs d.toInt.natAbs ∣ d.toInt.natAbs := Nat.gcd_dvd_right _ _
    have hcast : d.toInt = (d.toInt.natAbs : Int) := by omega
    rw [toInt_div_commonDivisor hd, hcast, Int.natAbs_natCast, ← Int.ofNat_tdiv]
    exact Int.natCast_pos.2 (Nat.div_pos (Nat.le_of_dvd (by omega) hdvd)
      (Nat.gcd_pos_of_pos_right _ (by omega)))
  coprime := by
    rw [toInt_div_commonDivisor hd, toInt_div_commonDivisor hd, Int.natAbs_tdiv,
      Int.natAbs_tdiv, Int.natAbs_natCast]
    exact Nat.coprime_div_gcd_div_gcd (Nat.gcd_pos_of_pos_right _ (by omega))
  num_ne_min := hn

/-- `n / d` in lowest terms, for a positive `d`. -/
def lowestTerms (n d : Int64) (hd : 0 < d.toInt) : Except Error Fraction :=
  if h : n / commonDivisor n d = Int64.minValue then
    .error .overflow
  else
    .ok (reduce n d hd h)

/-- The fraction of value `n / d`. A zero denominator is a division by zero; a negative one
moves its sign to the numerator, which fails when either word has no opposite; and the reduced
numerator must not be `-2^63`. -/
def make (n d : Int64) : Except Error Fraction :=
  if hz : d = 0 then
    .error .divisionByZero
  else if hd : 0 < d.toInt then
    lowestTerms n d hd
  else if h : n = Int64.minValue ∨ d = Int64.minValue then
    .error .overflow
  else
    lowestTerms (-n) (-d) (by
      have hne : d.toInt ≠ 0 := fun h0 => hz (Int64.toInt.inj h0)
      rw [Word.toInt_neg_of_ne_min fun hm => h (.inr hm)]
      omega)

/-! ## Integers as fractions -/

/-- The fraction of value `n`; every word but the least has one. -/
def ofInt (n : Int64) : Except Error Fraction := make n 1

/-- The fraction whose value is a 32-bit word, which always fits. -/
def ofInt32 (n : Int32) : Fraction where
  num := n.toInt64
  den := 1
  den_pos := Word.one_pos
  coprime := Nat.coprime_one_right _
  num_ne_min := fun h => by
    have hle := n.le_toInt
    have hmin := congrArg Int64.toInt h
    rw [Int32.toInt_toInt64, Int64.toInt_minValue] at hmin
    omega

instance : OfNat Fraction 0 where
  ofNat := ⟨0, 1, Word.one_pos, by decide, by decide⟩

instance : OfNat Fraction 1 where
  ofNat := ⟨1, 1, Word.one_pos, by decide, by decide⟩

@[simp] theorem num_zero : (0 : Fraction).num = 0 := rfl

@[simp] theorem den_zero : (0 : Fraction).den = 1 := rfl

@[simp] theorem num_one : (1 : Fraction).num = 1 := rfl

@[simp] theorem den_one : (1 : Fraction).den = 1 := rfl

/-! ## Questions about one fraction -/

/-- Whether the value is zero. -/
def isZero (a : Fraction) : Bool := a.num == 0

/-- Whether the value is an integer. -/
def isInteger (a : Fraction) : Bool := a.den == 1

/-- `-1`, `0` or `1`, the sign of the value. -/
def signum (a : Fraction) : Int := a.num.toInt.sign

/-- The only fraction of numerator zero is `0/1`. -/
theorem isZero_iff {a : Fraction} : a.isZero = true ↔ a = 0 := by
  constructor
  · intro h
    have hn : a.num = 0 := by simpa [isZero] using h
    have hcop := a.coprime
    rw [hn] at hcop
    have hden : a.den.toInt.natAbs = 1 := by simpa [Nat.Coprime] using hcop
    have hpos := a.den_pos
    refine ext_words hn (Int64.toInt.inj ?_)
    rw [den_zero, Int64.toInt_one]
    omega
  · rintro rfl
    rfl

end Fraction

end ExactLinAlg
