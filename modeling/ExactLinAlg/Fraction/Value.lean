import ExactLinAlg.Fraction.Arithmetic

/-!
# The value of a fraction

Every operation that succeeds computes the exact operation on the rational numbers that its
operands stand for, and fractions with the same value are the same (`toRat_injective`).
-/

namespace ExactLinAlg.Fraction

theorem den_cast_ne_zero (a : Fraction) : (a.den.toInt : Rat) ≠ 0 := by
  intro h
  have h0 := Rat.intCast_eq_zero_iff.1 h
  have hpos := a.den_pos
  omega

theorem toRat_eq_div (a : Fraction) : a.toRat = a.num.toInt / a.den.toInt := by
  have hden : ((a.den.toInt.toNat : Int) : Rat) = a.den.toInt :=
    congrArg _ (Int.toNat_of_nonneg (Int.le_of_lt a.den_pos))
  rw [toRat, Rat.mkRat_eq_div, ← Rat.intCast_natCast, hden]

/-- A fraction has the parts of its value. -/
theorem toRat_parts (a : Fraction) :
    a.toRat.num = a.num.toInt ∧ (a.toRat.den : Int) = a.den.toInt := by
  have hpos := a.den_pos
  have hcop : a.den.toInt.toNat.gcd a.num.toInt.natAbs = 1 := by
    rw [show a.den.toInt.toNat = a.den.toInt.natAbs by omega, Nat.gcd_comm]
    exact a.coprime
  rw [toRat, Rat.num_mkRat, Rat.den_mkRat, if_neg (by omega), if_neg (by omega), hcop,
    Nat.div_one]
  exact ⟨Int.ediv_one _, Int.toNat_of_nonneg (Int.le_of_lt hpos)⟩

/-- Fractions of the same value are the same. -/
theorem toRat_injective {a b : Fraction} (h : a.toRat = b.toRat) : a = b := by
  refine ext_words (Int64.toInt.inj ?_) (Int64.toInt.inj ?_)
  · rw [← a.toRat_parts.1, ← b.toRat_parts.1, h]
  · rw [← a.toRat_parts.2, ← b.toRat_parts.2, h]

@[simp] theorem toRat_zero : (0 : Fraction).toRat = 0 := by decide +kernel

@[simp] theorem toRat_one : (1 : Fraction).toRat = 1 := by decide +kernel

theorem toRat_eq_zero_iff {a : Fraction} : a.toRat = 0 ↔ a.isZero = true := by
  rw [isZero_iff]
  exact ⟨fun h => toRat_injective (h.trans toRat_zero.symm), fun h => h ▸ toRat_zero⟩

/-! ## Reduction -/

/-- A quotient is not changed by a common factor. -/
private theorem tdiv_div_tdiv {x y g : Int} (hg : g ≠ 0) (hx : g ∣ x) (hy : g ∣ y) (hy0 : y ≠ 0) :
    ((x.tdiv g : Int) : Rat) / (y.tdiv g : Int) = x / y := by
  obtain ⟨p, rfl⟩ := hx
  obtain ⟨q, rfl⟩ := hy
  have hq : (q : Rat) ≠ 0 := fun h => hy0 (by rw [Rat.intCast_eq_zero_iff.1 h, Int.mul_zero])
  have hg' : (g : Rat) ≠ 0 := fun h => hg (Rat.intCast_eq_zero_iff.1 h)
  rw [Int.mul_tdiv_cancel_left _ hg, Int.mul_tdiv_cancel_left _ hg, Rat.intCast_mul,
    Rat.intCast_mul]
  grind

/-- Reducing keeps the value. -/
theorem toRat_reduce {n d : Int64} (hd : 0 < d.toInt)
    (hn : n / commonDivisor n d ≠ Int64.minValue) :
    (reduce n d hd hn).toRat = n.toInt / d.toInt := by
  rw [toRat_eq_div]
  show (((n / commonDivisor n d).toInt : Int) : Rat) / ((d / commonDivisor n d).toInt : Int) = _
  rw [toInt_div_commonDivisor hd, toInt_div_commonDivisor hd]
  have hpos : 0 < Nat.gcd n.toInt.natAbs d.toInt.natAbs :=
    Nat.gcd_pos_of_pos_right _ (by omega)
  exact tdiv_div_tdiv (by omega) (Int.ofNat_dvd_left.2 (Nat.gcd_dvd_left _ _))
    (Int.ofNat_dvd_left.2 (Nat.gcd_dvd_right _ _)) (by omega)

theorem toRat_of_lowestTerms {n d : Int64} {hd : 0 < d.toInt} {a : Fraction}
    (h : lowestTerms n d hd = .ok a) : a.toRat = n.toInt / d.toInt := by
  unfold lowestTerms at h
  split at h
  · cases h
  · cases h
    exact toRat_reduce hd _

/-- A pair of words is read as the quotient of their values. -/
theorem toRat_of_make {n d : Int64} {a : Fraction} (h : make n d = .ok a) :
    d.toInt ≠ 0 ∧ a.toRat = n.toInt / d.toInt := by
  unfold make at h
  split at h
  · cases h
  · next hz =>
    refine ⟨fun h0 => hz (Int64.toInt.inj h0), ?_⟩
    split at h
    · exact toRat_of_lowestTerms h
    · split at h
      · cases h
      · next hmin =>
        rw [toRat_of_lowestTerms h, Word.toInt_neg_of_ne_min fun hn => hmin (.inl hn),
          Word.toInt_neg_of_ne_min fun hd => hmin (.inr hd), Rat.intCast_neg, Rat.intCast_neg]
        grind

/-! ## Arithmetic -/

theorem toRat_of_add {a b c : Fraction} (h : add a b = .ok c) :
    c.toRat = a.toRat + b.toRat := by
  obtain ⟨left, hl, h⟩ := bind_eq_ok_iff.1 h
  obtain ⟨right, hr, h⟩ := bind_eq_ok_iff.1 h
  obtain ⟨num, hn, h⟩ := bind_eq_ok_iff.1 h
  obtain ⟨den, hd, h⟩ := bind_eq_ok_iff.1 h
  rw [Word.mul_eq_ok_iff] at hl hr hd
  rw [Word.add_eq_ok_iff] at hn
  have ha := a.den_cast_ne_zero
  have hb := b.den_cast_ne_zero
  rw [(toRat_of_make h).2, toRat_eq_div, toRat_eq_div, hn, hd, hl, hr, Rat.intCast_add,
    Rat.intCast_mul, Rat.intCast_mul, Rat.intCast_mul]
  grind

theorem toRat_neg (a : Fraction) : (-a).toRat = -a.toRat := by
  rw [toRat_eq_div, toRat_eq_div, toInt_num_neg, den_neg, Rat.intCast_neg]
  grind

theorem toRat_of_sub {a b c : Fraction} (h : sub a b = .ok c) :
    c.toRat = a.toRat - b.toRat := by
  rw [toRat_of_add h, toRat_neg, Rat.sub_eq_add_neg]

theorem toRat_of_mul {a b c : Fraction} (h : mul a b = .ok c) :
    c.toRat = a.toRat * b.toRat := by
  obtain ⟨num, hn, h⟩ := bind_eq_ok_iff.1 h
  obtain ⟨den, hd, h⟩ := bind_eq_ok_iff.1 h
  rw [Word.mul_eq_ok_iff] at hn hd
  have ha := a.den_cast_ne_zero
  have hb := b.den_cast_ne_zero
  rw [(toRat_of_make h).2, toRat_eq_div, toRat_eq_div, hn, hd, Rat.intCast_mul, Rat.intCast_mul]
  grind

theorem toRat_of_recip {a b : Fraction} (h : recip a = .ok b) : b.toRat = a.toRat⁻¹ := by
  have ha := a.den_cast_ne_zero
  rw [(toRat_of_make h).2, toRat_eq_div]
  grind

theorem toRat_of_div {a b c : Fraction} (h : div a b = .ok c) :
    b.toRat ≠ 0 ∧ c.toRat = a.toRat / b.toRat := by
  unfold div at h
  by_cases hb : b.isZero = true
  · rw [if_pos hb] at h
    cases h
  · rw [if_neg hb] at h
    obtain ⟨num, hn, h⟩ := bind_eq_ok_iff.1 h
    obtain ⟨den, hd, h⟩ := bind_eq_ok_iff.1 h
    rw [Word.mul_eq_ok_iff] at hn hd
    refine ⟨fun h0 => hb (toRat_eq_zero_iff.1 h0), ?_⟩
    have ha := a.den_cast_ne_zero
    have hb := b.den_cast_ne_zero
    rw [(toRat_of_make h).2, toRat_eq_div, toRat_eq_div, hn, hd, Rat.intCast_mul,
      Rat.intCast_mul]
    grind

/-! ## Order -/

theorem toRat_nonneg_iff {a : Fraction} : 0 ≤ a.toRat ↔ 0 ≤ a.num.toInt := by
  rw [← Rat.num_nonneg, a.toRat_parts.1]

theorem toRat_abs (a : Fraction) : a.abs.toRat = a.toRat.abs := by
  unfold abs
  by_cases hlt : a.num < 0
  · have hneg := Int64.lt_iff_toInt_lt.1 hlt
    rw [Int64.toInt_zero] at hneg
    have hnn : ¬ 0 ≤ a.toRat := fun h => by
      have := toRat_nonneg_iff.1 h
      omega
    rw [if_pos hlt, toRat_neg, Rat.abs_of_nonpos (Rat.le_of_lt (Rat.not_le.1 hnn))]
  · have hge : 0 ≤ a.num.toInt := by
      have hn : ¬ a.num.toInt < (0 : Int64).toInt := fun h => hlt (Int64.lt_iff_toInt_lt.2 h)
      rw [Int64.toInt_zero] at hn
      omega
    rw [if_neg hlt, Rat.abs_of_nonneg (toRat_nonneg_iff.2 hge)]

theorem toRat_lt_iff {a b : Fraction} :
    a.toRat < b.toRat ↔ a.num.toInt * b.den.toInt < b.num.toInt * a.den.toInt := by
  rw [Rat.lt_iff, a.toRat_parts.1, a.toRat_parts.2, b.toRat_parts.1, b.toRat_parts.2]

theorem toRat_eq_iff {a b : Fraction} :
    a.toRat = b.toRat ↔ a.num.toInt * b.den.toInt = b.num.toInt * a.den.toInt := by
  rw [Rat.eq_iff_mul_eq_mul, a.toRat_parts.1, a.toRat_parts.2, b.toRat_parts.1, b.toRat_parts.2]

/-- Cross multiplication compares the values. -/
theorem order_of_compare {a b : Fraction} {o : Ordering} (h : compare a b = .ok o) :
    (o = .lt ↔ a.toRat < b.toRat) ∧ (o = .eq ↔ a.toRat = b.toRat) ∧
      (o = .gt ↔ b.toRat < a.toRat) := by
  obtain ⟨left, hl, h⟩ := bind_eq_ok_iff.1 h
  obtain ⟨right, hr, h⟩ := bind_eq_ok_iff.1 h
  rw [Word.mul_eq_ok_iff] at hl hr
  cases h
  rw [toRat_lt_iff, toRat_lt_iff, toRat_eq_iff, hl, hr]
  exact ⟨Int.compare_eq_lt, Int.compare_eq_eq, Int.compare_eq_gt⟩

end ExactLinAlg.Fraction
