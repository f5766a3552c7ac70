import ExactLinAlg.Error

/-!
# Checked arithmetic on 64-bit words

A word is a signed 64-bit integer. Sums, products and opposites are formed in the integers and
then read back as words, so an operation succeeds exactly when its mathematical result fits:
`mul_eq_ok_iff`, `add_eq_ok_iff`, `neg_eq_ok_iff`. Divisors are found on the unsigned
magnitudes by Euclid's algorithm (`toNat_gcd`).
-/

namespace ExactLinAlg.Word

/-- The integers that are the value of some word. -/
def InRange (n : Int) : Prop :=
  Int64.minValue.toInt ≤ n ∧ n ≤ Int64.maxValue.toInt

instance (n : Int) : Decidable (InRange n) :=
  inferInstanceAs (Decidable (_ ∧ _))

theorem inRange_iff {n : Int} :
    InRange n ↔ -9223372036854775808 ≤ n ∧ n ≤ 9223372036854775807 := Iff.rfl

theorem inRange_toInt (a : Int64) : InRange a.toInt :=
  ⟨a.minValue_le_toInt, a.toInt_le⟩

theorem one_pos : 0 < (1 : Int64).toInt := by decide

/-- The word of value `n`, if there is one. -/
def ofInt (n : Int) : Except Error Int64 :=
  if InRange n then .ok (Int64.ofInt n) else .error .overflow

/-- The product of two words, if it fits. -/
def mul (a b : Int64) : Except Error Int64 := ofInt (a.toInt * b.toInt)

/-- The sum of two words, if it fits. -/
def add (a b : Int64) : Except Error Int64 := ofInt (a.toInt + b.toInt)

/-- The opposite of a word, if it fits. -/
def neg (a : Int64) : Except Error Int64 := ofInt (-a.toInt)

/-- The unsigned distance of a word from zero, at most `2^63`. -/
def magnitude (a : Int64) : UInt64 := UInt64.ofNat a.toInt.natAbs

/-- The greatest common divisor of two unsigned words, with `gcd a 0 = a`. -/
def gcd (a b : UInt64) : UInt64 :=
  if _ : b = 0 then a else gcd b (a % b)
termination_by b.toNat
decreasing_by
  rename_i hb
  rw [UInt64.toNat_mod]
  exact Nat.mod_lt _ (Nat.pos_of_ne_zero fun h => hb (UInt64.toNat_inj.1 h))

/-! ## When the checked operations succeed -/

theorem toInt_ofInt_of_inRange {n : Int} (h : InRange n) : (Int64.ofInt n).toInt = n := by
  have h' := inRange_iff.1 h
  exact Int64.toInt_ofInt_of_le h'.1 (Int.lt_add_one_of_le h'.2)

theorem ofInt_eq_ok_iff {n : Int} {w : Int64} : ofInt n = .ok w ↔ w.toInt = n := by
  unfold ofInt
  constructor
  · intro h
    split at h
    · next hr => cases h; exact toInt_ofInt_of_inRange hr
    · cases h
  · rintro rfl
    rw [if_pos (inRange_toInt w), Int64.ofInt_toInt]

theorem ofInt_eq_error_iff {n : Int} {e : Error} :
    ofInt n = .error e ↔ ¬ InRange n ∧ e = .overflow := by
  unfold ofInt
  split <;> simp_all [eq_comm]

theorem mul_eq_ok_iff {a b w : Int64} : mul a b = .ok w ↔ w.toInt = a.toInt * b.toInt :=
  ofInt_eq_ok_iff

theorem add_eq_ok_iff {a b w : Int64} : add a b = .ok w ↔ w.toInt = a.toInt + b.toInt :=
  ofInt_eq_ok_iff

theorem neg_eq_ok_iff {a w : Int64} : neg a = .ok w ↔ w.toInt = -a.toInt :=
  ofInt_eq_ok_iff

theorem mul_comm (a b : Int64) : mul a b = mul b a := by
  rw [mul, mul, Int.mul_comm]

theorem add_comm (a b : Int64) : add a b = add b a := by
  rw [add, add, Int.add_comm]

/-- Only the least word has no opposite. -/
theorem toInt_neg_of_ne_min {a : Int64} (h : a ≠ Int64.minValue) : (-a).toInt = -a.toInt := by
  have hr := inRange_iff.1 (inRange_toInt a)
  have hne : a.toInt ≠ -9223372036854775808 := fun h' => h (Int64.toInt.inj h')
  rw [Int64.toInt_neg]
  exact Int.bmod_eq_of_le (by omega) (by omega)

/-! ## Magnitudes and divisors -/

theorem toNat_magnitude (a : Int64) : (magnitude a).toNat = a.toInt.natAbs := by
  have h := inRange_iff.1 (inRange_toInt a)
  have hsize : UInt64.size = 18446744073709551616 := rfl
  exact UInt64.toNat_ofNat_of_lt' (by omega)

theorem toNat_gcd (a b : UInt64) : (gcd a b).toNat = Nat.gcd a.toNat b.toNat := by
  fun_induction gcd a b with
  | case1 a => simp
  | case2 a b hb ih =>
    rw [ih, UInt64.toNat_mod, Nat.gcd_comm b.toNat, Nat.gcd_comm a.toNat, ← Nat.gcd_rec]

end ExactLinAlg.Word
