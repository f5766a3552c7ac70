import ExactLinAlg.Proofs.Order
import ExactLinAlg.Proofs.Rounding
import Mathlib

/-!
# The order of fractions as binary numbers

A fraction becomes a binary number in three steps: its numerator and its denominator are rounded,
and then their quotient is. The last step keeps every order, but the first two can move two
fractions that are close together past each other (`Fraction.toBinary64_reverses`). They do not if
they leave the parts alone, if one part is the same in both fractions, or if the fractions are
farther apart than the first two steps can move them (`Fraction.toBinary64_keeps_order`).
-/

namespace ExactLinAlg.Fraction

variable {a b : Fraction}

/-- The quotient of the rounded parts. -/
def ratio (a : Fraction) : ℚ := Binary64.round a.num.toInt / Binary64.round a.den.toInt

theorem toBinary64_eq (a : Fraction) : a.toBinary64 = .finite (Binary64.round a.ratio) := rfl

theorem round_den_pos (a : Fraction) : 0 < Binary64.round a.den.toInt := by
  have hden : (1 : ℚ) ≤ a.den.toInt := by exact_mod_cast a.den_pos
  exact one_pos.trans_le (Binary64.one_le_round hden)

theorem round_num_nonneg (h : 0 ≤ a.num.toInt) : 0 ≤ Binary64.round a.num.toInt := by
  rw [← Binary64.round_zero]
  exact Binary64.round_mono (by exact_mod_cast h)

theorem round_num_nonpos (h : a.num.toInt ≤ 0) : Binary64.round a.num.toInt ≤ 0 := by
  rw [← Binary64.round_zero]
  exact Binary64.round_mono (by exact_mod_cast h)

/-! ## Rounding that leaves the parts alone, or moves them alike -/

/-- Rounding leaves both parts of a fraction alone. -/
structure HasBinaryParts (a : Fraction) : Prop where
  num : Binary64.IsRepresentable a.num.toInt
  den : Binary64.IsRepresentable a.den.toInt

/-- Parts of up to 53 bits. -/
theorem hasBinaryParts_of_abs_le (hnum : |a.num.toInt| ≤ 2 ^ 53) (hden : |a.den.toInt| ≤ 2 ^ 53) :
    a.HasBinaryParts :=
  ⟨Binary64.isRepresentable_intCast hnum, Binary64.isRepresentable_intCast hden⟩

theorem ratio_of_hasBinaryParts (h : a.HasBinaryParts) : a.ratio = a.toRat := by
  rw [ratio, Binary64.round_of_isRepresentable h.num, Binary64.round_of_isRepresentable h.den,
    toRat_eq_div]

theorem ratio_le_of_den_eq (hlt : a.toRat < b.toRat) (hden : a.den = b.den) :
    a.ratio ≤ b.ratio := by
  rw [toRat_lt_iff, hden] at hlt
  have hnum : a.num.toInt ≤ b.num.toInt := (lt_of_mul_lt_mul_right hlt b.den_pos.le).le
  rw [ratio, ratio, hden]
  exact div_le_div_of_nonneg_right (Binary64.round_mono (by exact_mod_cast hnum))
    b.round_den_pos.le

theorem ratio_le_of_num_eq (hlt : a.toRat < b.toRat) (hnum : a.num = b.num) :
    a.ratio ≤ b.ratio := by
  rw [toRat_lt_iff, hnum] at hlt
  rw [ratio, ratio, hnum, div_le_div_iff₀ a.round_den_pos b.round_den_pos]
  rcases le_total 0 b.num.toInt with hsign | hsign
  · have hden : b.den.toInt ≤ a.den.toInt := (lt_of_mul_lt_mul_left hlt hsign).le
    exact mul_le_mul_of_nonneg_left (Binary64.round_mono (by exact_mod_cast hden))
      (round_num_nonneg hsign)
  · have hden : a.den.toInt ≤ b.den.toInt := (lt_of_mul_lt_mul_of_nonpos_left hlt hsign).le
    exact mul_le_mul_of_nonpos_left (Binary64.round_mono (by exact_mod_cast hden))
      (round_num_nonpos hsign)

/-! ## Fractions that are far apart -/

theorem ratio_nonneg (h : 0 ≤ a.toRat) : 0 ≤ a.ratio :=
  div_nonneg (round_num_nonneg (toRat_nonneg_iff.1 h)) a.round_den_pos.le

theorem ratio_nonpos (h : a.toRat ≤ 0) : a.ratio ≤ 0 := by
  refine div_nonpos_of_nonpos_of_nonneg (round_num_nonpos ?_) a.round_den_pos.le
  rwa [← a.toRat_parts.1, Rat.num_nonpos]

/-- The two roundings move the absolute value of a fraction by at most one part of `2 ^ (-53)`
each. -/
theorem abs_ratio_near (a : Fraction) :
    (1 - 2 ^ (-53 : ℤ)) * |a.ratio| ≤ (1 + 2 ^ (-53 : ℤ)) * |a.toRat| ∧
      (1 - 2 ^ (-53 : ℤ)) * |a.toRat| ≤ (1 + 2 ^ (-53 : ℤ)) * |a.ratio| := by
  have hu : (0 : ℚ) < 2 ^ (-53 : ℤ) := Binary64.two_zpow_pos _
  have hnum := Binary64.abs_sub_round_intCast_le a.num.toInt
  have hden := Binary64.abs_sub_round_intCast_le a.den.toInt
  have hround := a.round_den_pos
  have hpos : (0 : ℚ) < a.den.toInt := by exact_mod_cast a.den_pos
  rw [ratio, toRat_eq_div, abs_div, abs_div, abs_of_pos hround, abs_of_pos hpos]
  rw [abs_of_pos hpos] at hden
  generalize (2 : ℚ) ^ (-53 : ℤ) = u at hu hnum hden ⊢
  generalize (a.num.toInt : ℚ) = n at hnum ⊢
  generalize (a.den.toInt : ℚ) = d at hden hround hpos ⊢
  have hnum_le : |Binary64.round n| ≤ (1 + u) * |n| := by
    have := abs_sub_abs_le_abs_sub (Binary64.round n) n
    rw [abs_sub_comm] at this
    linarith
  have hle_num : (1 - u) * |n| ≤ |Binary64.round n| := by
    have := abs_sub_abs_le_abs_sub n (Binary64.round n)
    linarith
  obtain ⟨hden_le, hle_den⟩ := abs_le.1 hden
  constructor
  · rw [mul_div_assoc', mul_div_assoc', div_le_div_iff₀ hround hpos]
    calc (1 - u) * |Binary64.round n| * d = |Binary64.round n| * ((1 - u) * d) := by ring
      _ ≤ |Binary64.round n| * Binary64.round d :=
          mul_le_mul_of_nonneg_left (by linarith) (abs_nonneg _)
      _ ≤ (1 + u) * |n| * Binary64.round d := mul_le_mul_of_nonneg_right hnum_le hround.le
  · rw [mul_div_assoc', mul_div_assoc', div_le_div_iff₀ hpos hround]
    calc (1 - u) * |n| * Binary64.round d ≤ |Binary64.round n| * Binary64.round d :=
          mul_le_mul_of_nonneg_right hle_num hround.le
      _ ≤ |Binary64.round n| * ((1 + u) * d) :=
          mul_le_mul_of_nonneg_left (by linarith) (abs_nonneg _)
      _ = (1 + u) * |Binary64.round n| * d := by ring

/-- Numbers that are moved by so little keep their order if they are far apart. -/
theorem le_of_near {x y p q u : ℚ} (hu : 0 ≤ u) (hu' : u < 1) (hxy : x ≤ y)
    (hp : (1 - u) * p ≤ (1 + u) * x) (hq : (1 - u) * y ≤ (1 + u) * q)
    (hgap : 2 * u * (x + y) ≤ y - x) : p ≤ q := by
  have hpos : 0 < (1 - u) * (1 + u) := mul_pos (by linarith) (by linarith)
  refine le_of_mul_le_mul_left ?_ hpos
  calc (1 - u) * (1 + u) * p = (1 + u) * ((1 - u) * p) := by ring
    _ ≤ (1 + u) * ((1 + u) * x) := mul_le_mul_of_nonneg_left hp (by linarith)
    _ ≤ (1 - u) * ((1 - u) * y) := by linarith [mul_nonneg (sq_nonneg u) (sub_nonneg.2 hxy)]
    _ ≤ (1 - u) * ((1 + u) * q) := mul_le_mul_of_nonneg_left hq (by linarith)
    _ = (1 - u) * (1 + u) * q := by ring

theorem ratio_le_of_apart (hlt : a.toRat < b.toRat)
    (hgap : |a.toRat| + |b.toRat| ≤ 2 ^ 52 * (b.toRat - a.toRat)) : a.ratio ≤ b.ratio := by
  have ha := a.abs_ratio_near
  have hb := b.abs_ratio_near
  rcases le_total 0 a.toRat with hsign | hsign
  · have hsign' := hsign.trans hlt.le
    rw [abs_of_nonneg hsign, abs_of_nonneg (ratio_nonneg hsign)] at ha
    rw [abs_of_nonneg hsign', abs_of_nonneg (ratio_nonneg hsign')] at hb
    rw [abs_of_nonneg hsign, abs_of_nonneg hsign'] at hgap
    refine le_of_near (by norm_num) (by norm_num) hlt.le ha.1 hb.2 ?_
    norm_num at hgap ⊢
    linarith
  · rcases le_total 0 b.toRat with hsign' | hsign'
    · exact (ratio_nonpos hsign).trans (ratio_nonneg hsign')
    · rw [abs_of_nonpos hsign, abs_of_nonpos (ratio_nonpos hsign)] at ha
      rw [abs_of_nonpos hsign', abs_of_nonpos (ratio_nonpos hsign')] at hb
      rw [abs_of_nonpos hsign, abs_of_nonpos hsign'] at hgap
      refine neg_le_neg_iff.1 (le_of_near (by norm_num) (by norm_num) (neg_le_neg hlt.le)
        hb.1 ha.2 ?_)
      norm_num at hgap ⊢
      linarith

/-! ## The conversion -/

/-- **The order of fractions as binary numbers.** A fraction that compares as less than another one
becomes a binary number that is not greater, if rounding leaves all four parts alone, if the
fractions have a part in common, or if the sum of their absolute values is at most `2 ^ 52` times
their difference. -/
theorem toBinary64_keeps_order (h : compare a b = .ok .lt)
    (hab : a.HasBinaryParts ∧ b.HasBinaryParts ∨ a.num = b.num ∨ a.den = b.den ∨
      |a.toRat| + |b.toRat| ≤ 2 ^ 52 * (b.toRat - a.toRat)) :
    ∃ p q, a.toBinary64 = .finite p ∧ b.toBinary64 = .finite q ∧ p ≤ q := by
  have hlt : a.toRat < b.toRat := (order_of_compare h).1.1 rfl
  refine ⟨_, _, a.toBinary64_eq, b.toBinary64_eq, Binary64.round_mono ?_⟩
  rcases hab with ⟨ha, hb⟩ | hnum | hden | hgap
  · rw [ratio_of_hasBinaryParts ha, ratio_of_hasBinaryParts hb]
    exact hlt.le
  · exact ratio_le_of_num_eq hlt hnum
  · exact ratio_le_of_den_eq hlt hden
  · exact ratio_le_of_apart hlt hgap

/-- Two fractions with small parts, two with a common part and two that are far apart. The largest
numerators and denominators are rounded to `2 ^ 63`. -/
theorem toBinary64_keeps_order_of_pairs :
    let a : Fraction := ⟨-1, 3, by decide, by decide, by decide⟩
    let b : Fraction := ⟨9007199254740992, 7, by decide, by decide, by decide⟩
    let c : Fraction := ⟨9223372036854775806, 1, by decide, by decide, by decide⟩
    let d : Fraction := ⟨9223372036854775807, 1, by decide, by decide, by decide⟩
    let e : Fraction := ⟨1, 9223372036854775807, by decide, by decide, by decide⟩
    let f : Fraction := ⟨1, 9223372036854775806, by decide, by decide, by decide⟩
    (compare a b = .ok .lt ∧ (a.HasBinaryParts ∧ b.HasBinaryParts) ∧
      ∃ p q, a.toBinary64 = .finite p ∧ b.toBinary64 = .finite q ∧ p ≤ q) ∧
    (compare c d = .ok .lt ∧ c.den = d.den ∧
      ∃ p q, c.toBinary64 = .finite p ∧ d.toBinary64 = .finite q ∧ p ≤ q) ∧
    (compare e f = .ok .lt ∧ e.num = f.num ∧
      ∃ p q, e.toBinary64 = .finite p ∧ f.toBinary64 = .finite q ∧ p ≤ q) ∧
    (compare e 1 = .ok .lt ∧ |e.toRat| + |(1 : Fraction).toRat| ≤
        2 ^ 52 * ((1 : Fraction).toRat - e.toRat) ∧
      ∃ p q, e.toBinary64 = .finite p ∧ (1 : Fraction).toBinary64 = .finite q ∧ p ≤ q) := by
  intro a b c d e f
  have hab : compare a b = .ok .lt := by
    decide +kernel
  have hcd : compare c d = .ok .lt := by
    decide +kernel
  have hef : compare e f = .ok .lt := by
    decide +kernel
  have he : compare e 1 = .ok .lt := by
    decide +kernel
  have ha : a.HasBinaryParts := hasBinaryParts_of_abs_le (by decide) (by decide)
  have hb : b.HasBinaryParts := hasBinaryParts_of_abs_le (by decide) (by decide)
  have hgap : |e.toRat| + |(1 : Fraction).toRat| ≤ 2 ^ 52 * ((1 : Fraction).toRat - e.toRat) := by
    decide +kernel
  exact ⟨⟨hab, ⟨ha, hb⟩, toBinary64_keeps_order hab (.inl ⟨ha, hb⟩)⟩,
    ⟨hcd, rfl, toBinary64_keeps_order hcd (.inr (.inr (.inl rfl)))⟩,
    ⟨hef, rfl, toBinary64_keeps_order hef (.inr (.inl rfl))⟩,
    ⟨he, hgap, toBinary64_keeps_order he (.inr (.inr (.inr hgap)))⟩⟩

/-- Two fractions that change places. The numerator of the first one is rounded up and that of the
second one is rounded down, and both are a tie. -/
theorem toBinary64_reverses :
    let a : Fraction := ⟨9007199254740995, 1, by decide, by decide, by decide⟩
    let b : Fraction := ⟨27021597764222986, 3, by decide, by decide, by decide⟩
    compare a b = .ok .lt ∧ a.toBinary64 = .finite 9007199254740996 ∧
      b.toBinary64 = .finite 9007199254740994 ∧
      ¬ ∃ p q, a.toBinary64 = .finite p ∧ b.toBinary64 = .finite q ∧ p ≤ q := by
  intro a b
  have hcompare : compare a b = .ok .lt := by
    decide +kernel
  have ha : a.toBinary64 = .finite 9007199254740996 := by
    decide +kernel
  have hb : b.toBinary64 = .finite 9007199254740994 := by
    decide +kernel
  refine ⟨hcompare, ha, hb, ?_⟩
  rintro ⟨p, q, hp, hq, hle⟩
  cases ha.symm.trans hp
  cases hb.symm.trans hq
  exact absurd hle (by norm_num)

end ExactLinAlg.Fraction
