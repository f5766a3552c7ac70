/-!
# Binary numbers of 64 bits

A binary number is kept as the exact rational number that it stands for. Besides reading and
writing the bits there is one operation, `round`, which takes a rational number to the nearest
one that 53 significant bits can hold; an arithmetic operation on binary numbers is the exact
operation followed by `round`. Main statement: rounding never takes a number from above one to
below it (`one_le_round`).
-/

namespace ExactLinAlg

/-- A number of the 64-bit binary format. The two zeros of the format are one number. -/
inductive Binary64 where
  | nan
  | infinity (negative : Bool)
  | finite (value : Rat)
deriving DecidableEq

namespace Binary64

/-- The exponent of the least positive number, of which all finite numbers are multiples. -/
def minExponent : Int := -1074

/-- The integer part of the binary logarithm of `|q|`, for a `q` other than zero. -/
def log2 (q : Rat) : Int :=
  let estimate : Int := (q.num.natAbs.log2 : Int) - q.den.log2
  if q.abs < 2 ^ estimate then estimate - 1 else estimate

/-- The exponent of the spacing between the binary numbers about `q`: there are 53 significant
bits, and fewer next to zero. -/
def spacingExponent (q : Rat) : Int :=
  if q = 0 then minExponent else max (log2 q - 52) minExponent

/-- The nearest integer, and of two equally near ones the even one. -/
def nearestInt (q : Rat) : Int :=
  let below := q.floor
  let excess := q - below
  if excess < 1 / 2 ∨ excess = 1 / 2 ∧ below % 2 = 0 then below else below + 1

/-- The number of spacings in the multiple nearest to `q`. -/
def significand (q : Rat) : Int := nearestInt (q / 2 ^ spacingExponent q)

/-- The binary number nearest to `q`, a tie going to the even multiple of the spacing. There is
no largest number here: the result may lie beyond the finite numbers of the format. -/
def round (q : Rat) : Rat := significand q * 2 ^ spacingExponent q

/-- The quotient of two integers as a binary number: both are rounded before the division, and
the quotient after it. -/
def quotient (n d : Int) : Rat := round (round n / round d)

/-- The number with the given 64 bits: a sign, eleven bits of exponent, 52 of fraction. -/
def ofBits (bits : UInt64) : Binary64 :=
  let negative := bits >>> 63 = 1
  let exponent := ((bits >>> 52) &&& 0x7ff).toNat
  let fraction := (bits &&& 0xfffffffffffff).toNat
  if exponent = 0x7ff then
    if fraction = 0 then .infinity negative else .nan
  else
    let magnitude : Rat :=
      if exponent = 0 then
        fraction * 2 ^ minExponent
      else
        (fraction + 0x10000000000000 : Nat) * 2 ^ (minExponent + exponent - 1)
    .finite (if negative then -magnitude else magnitude)

/-- The 64 bits of a number of the format; zero gets the positive sign, and what is not a number
the sign and fraction of a quiet one. -/
def toBits : Binary64 → UInt64
  | nan => 0x7ff8000000000000
  | infinity negative => if negative then 0xfff0000000000000 else 0x7ff0000000000000
  | finite q =>
    let magnitude := (spacingExponent q - minExponent).toNat <<< 52 + (significand q).natAbs
    UInt64.ofNat (if q < 0 then magnitude + 1 <<< 63 else magnitude)

/-! ## Rounding keeps numbers above one -/

theorem le_nearestInt {z : Int} {q : Rat} (h : (z : Rat) ≤ q) : z ≤ nearestInt q := by
  have hfloor : z ≤ q.floor := Rat.le_floor_iff.2 h
  unfold nearestInt
  dsimp only
  split <;> omega

theorem two_zpow_pos (e : Int) : (0 : Rat) < 2 ^ e := Rat.zpow_pos (by decide)

theorem one_le_two_zpow {e : Int} (h : 0 ≤ e) : (1 : Rat) ≤ 2 ^ e := by
  obtain ⟨n, rfl⟩ := Int.eq_ofNat_of_zero_le h
  have hle := Rat.natCast_le_natCast.2 (Nat.one_le_two_pow (n := n))
  rw [Rat.natCast_pow] at hle
  exact hle

private theorem mul_den_eq_num (q : Rat) : q * q.den = q.num := by
  have h : q = q.num / (q.den : Rat) := by
    rw [← Rat.mkRat_eq_div, Rat.mkRat_self]
  have hd : (q.den : Rat) ≠ 0 := fun h0 => q.den_nz (Rat.natCast_eq_zero_iff.1 h0)
  calc q * q.den = q.num / (q.den : Rat) * q.den := congrArg (· * (q.den : Rat)) h
    _ = q.num := Rat.div_mul_cancel hd

/-- The binary logarithm is at least its integer part. -/
theorem two_zpow_log2_le {q : Rat} (hq : 0 < q) : 2 ^ log2 q ≤ q := by
  have habs : q.abs = q := Rat.abs_of_nonneg (Rat.le_of_lt hq)
  have hnum : 0 < q.num := by
    have hle := Rat.num_nonneg.2 (Rat.le_of_lt hq)
    have hne : q.num ≠ 0 := fun h => Rat.ne_of_gt hq (Rat.num_eq_zero.1 h)
    omega
  unfold log2
  rw [habs]
  dsimp only
  split
  · have hn : 2 ^ q.num.natAbs.log2 ≤ q.num.natAbs := Nat.log2_self_le (by omega)
    have hd : q.den ≤ 2 ^ (q.den.log2 + 1) := Nat.le_of_lt Nat.lt_log2_self
    refine Rat.le_of_mul_le_mul_right (c := (q.den : Rat)) ?_ (Rat.natCast_pos.2 q.den_pos)
    rw [mul_den_eq_num]
    have hsum : (q.num.natAbs.log2 : Int) =
        ((q.num.natAbs.log2 : Int) - q.den.log2 - 1) + ((q.den.log2 + 1 : Nat) : Int) := by
      omega
    have hsplit : (2 : Rat) ^ q.num.natAbs.log2 =
        2 ^ ((q.num.natAbs.log2 : Int) - q.den.log2 - 1) * 2 ^ (q.den.log2 + 1) := by
      rw [← Rat.zpow_natCast, ← Rat.zpow_natCast, ← Rat.zpow_add (by decide), ← hsum]
    have hcast : (q.num : Rat) = (q.num.natAbs : Rat) := by
      rw [← Rat.intCast_natCast]
      exact congrArg _ (by omega)
    refine Rat.le_trans (b := 2 ^ ((q.num.natAbs.log2 : Int) - q.den.log2 - 1) *
      2 ^ (q.den.log2 + 1)) ?_ ?_
    · refine Rat.mul_le_mul_of_nonneg_left ?_ (Rat.le_of_lt (two_zpow_pos _))
      have h := Rat.natCast_le_natCast.2 hd
      rw [Rat.natCast_pow] at h
      exact h
    · rw [← hsplit, hcast]
      have h := Rat.natCast_le_natCast.2 hn
      rw [Rat.natCast_pow] at h
      exact h
  · next h => exact Rat.not_lt.1 h

/-- Rounding never takes a number from above one to below it, since one is a multiple of the
spacing below `2^53` and the spacing itself exceeds one from there on. -/
theorem one_le_round {q : Rat} (h : 1 ≤ q) : 1 ≤ round q := by
  have hq : 0 < q := by grind
  unfold round significand
  generalize he : spacingExponent q = e
  have hpos := two_zpow_pos e
  by_cases hneg : e ≤ 0
  · obtain ⟨n, hn⟩ := Int.eq_ofNat_of_zero_le (show 0 ≤ -e by omega)
    have hcancel : (2 : Rat) ^ n * 2 ^ e = 1 := by
      rw [← Rat.zpow_natCast, ← Rat.zpow_add (by decide), ← hn, Int.add_left_neg, Rat.zpow_zero]
    have hle : (((2 ^ n : Nat) : Int) : Rat) ≤ q / 2 ^ e := by
      refine Rat.le_of_mul_le_mul_right (c := 2 ^ e) ?_ hpos
      rw [Rat.div_mul_cancel (Rat.ne_of_gt hpos), Rat.intCast_natCast, Rat.natCast_pow]
      exact hcancel ▸ h
    have hmul := Rat.mul_le_mul_of_nonneg_right
      (Rat.intCast_le_intCast.2 (le_nearestInt hle)) (Rat.le_of_lt hpos)
    rw [Rat.intCast_natCast, Rat.natCast_pow] at hmul
    exact hcancel ▸ hmul
  · have hlog : e ≤ log2 q := by
      unfold spacingExponent minExponent at he
      split at he <;> omega
    have hspace : 2 ^ e ≤ q := by
      have h1 := Rat.mul_le_mul_of_nonneg_right
        (one_le_two_zpow (show 0 ≤ log2 q - e by omega)) (Rat.le_of_lt hpos)
      rw [← Rat.zpow_add (by decide), Int.sub_add_cancel, Rat.one_mul] at h1
      exact Rat.le_trans h1 (two_zpow_log2_le hq)
    have hle : ((1 : Int) : Rat) ≤ q / 2 ^ e := by
      refine Rat.le_of_mul_le_mul_right (c := 2 ^ e) ?_ hpos
      rw [Rat.div_mul_cancel (Rat.ne_of_gt hpos), Rat.intCast_one, Rat.one_mul]
      exact hspace
    have hmul := Rat.mul_le_mul_of_nonneg_right
      (Rat.intCast_le_intCast.2 (le_nearestInt hle)) (Rat.le_of_lt hpos)
    rw [Rat.intCast_one, Rat.one_mul] at hmul
    exact Rat.le_trans (one_le_two_zpow (by omega)) hmul

end Binary64

end ExactLinAlg
