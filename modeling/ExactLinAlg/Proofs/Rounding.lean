import ExactLinAlg.Proofs.Approximation
import Mathlib

/-!
# Rounding

The result of `Binary64.round` is one of the numbers that 53 significant bits can hold
(`isRepresentable_round`), and none of them is nearer (`abs_sub_round_le`). This is all that matters
of the way in which ties are decided: rounding leaves these numbers alone
(`round_of_isRepresentable`) and keeps the order of any two (`round_mono`). Unless a number is next
to zero, rounding changes it by at most a part of `2 ^ (-53)` (`abs_sub_round_le_mul`).
-/

namespace ExactLinAlg.Binary64

variable {p q : ℚ}

/-! ## The nearest integer -/

theorem nearestInt_le {z : ℤ} (h : q ≤ z) : nearestInt q ≤ z := by
  have hfloor : q.floor ≤ z := Int.cast_le.1 ((Rat.floor_le q).trans h)
  unfold nearestInt
  dsimp only
  split
  · exact hfloor
  · next hexcess =>
    have hne : q.floor ≠ z := by
      rintro rfl
      exact hexcess (Or.inl ((sub_nonpos.2 h).trans_lt one_half_pos))
    omega

theorem abs_sub_nearestInt_le_half (q : ℚ) : |q - nearestInt q| ≤ 1 / 2 := by
  have hle := Rat.floor_le q
  have hlt := Rat.lt_floor_add_one q
  unfold nearestInt
  dsimp only
  split
  · next h =>
    rw [abs_of_nonneg (sub_nonneg.2 hle)]
    rcases h with h | h
    · exact h.le
    · exact h.1.le
  · next h =>
    have hhalf : 1 / 2 ≤ q - q.floor := not_lt.1 fun hlt => h (Or.inl hlt)
    rw [abs_of_nonpos (sub_nonpos.2 hlt.le)]
    push_cast
    linarith

theorem abs_sub_nearestInt_le (q : ℚ) (z : ℤ) : |q - nearestInt q| ≤ |q - z| := by
  by_cases hz : nearestInt q = z
  · rw [hz]
  · have hhalf := abs_sub_nearestInt_le_half q
    have hone : (1 : ℚ) ≤ |(nearestInt q : ℚ) - z| := by
      exact_mod_cast Int.one_le_abs (sub_ne_zero.2 hz)
    have htriangle := abs_sub_le (nearestInt q : ℚ) q z
    rw [abs_sub_comm (nearestInt q : ℚ) q] at htriangle
    linarith

/-! ## The spacing -/

theorem log2_abs (q : ℚ) : log2 |q| = log2 q := by
  rcases abs_choice q with h | h <;> rw [h]
  simp only [log2, Rat.abs_neg, Rat.neg_num, Rat.neg_den, Int.natAbs_neg]

theorem two_zpow_log2_le_abs (hq : q ≠ 0) : 2 ^ log2 q ≤ |q| := by
  rw [← log2_abs]
  exact two_zpow_log2_le (abs_pos.2 hq)

theorem abs_lt_two_zpow_log2 (q : ℚ) : |q| < 2 ^ (log2 q + 1) := by
  unfold log2
  dsimp only
  split
  · next h => rwa [ratAbs_eq_abs, ← sub_add_cancel (_ - _) 1] at h
  · have hnum : (q.num.natAbs : ℚ) < 2 ^ ((q.num.natAbs.log2 : ℤ) + 1) := by
      exact_mod_cast Nat.lt_log2_self (n := q.num.natAbs)
    have hden : (2 : ℚ) ^ (q.den.log2 : ℤ) ≤ q.den := by
      exact_mod_cast Nat.log2_self_le q.den_nz
    have hpos : (0 : ℚ) < 2 ^ (q.den.log2 : ℤ) := two_zpow_pos _
    calc |q| = q.num.natAbs / q.den := by
          rw [Nat.cast_natAbs, Int.cast_abs, ← Nat.abs_cast q.den, ← abs_div, Rat.num_div_den]
      _ < 2 ^ ((q.num.natAbs.log2 : ℤ) + 1) / 2 ^ (q.den.log2 : ℤ) :=
          div_lt_div₀ hnum hden (two_zpow_pos _).le hpos
      _ = 2 ^ ((q.num.natAbs.log2 : ℤ) - q.den.log2 + 1) := by
          rw [← zpow_sub₀ two_ne_zero]
          congr 1
          ring

/-- At most 53 bits stand before the spacing. -/
theorem abs_lt_two_zpow_spacing (q : ℚ) : |q| < 2 ^ (53 + spacingExponent q) := by
  unfold spacingExponent
  split
  · next h => rw [h, abs_zero]; exact two_zpow_pos _
  · refine (abs_lt_two_zpow_log2 q).trans_le (zpow_le_zpow_right₀ one_le_two ?_)
    omega

/-- Away from zero, exactly 53 bits stand before the spacing. -/
theorem two_zpow_spacing_le_abs (h : minExponent < spacingExponent q) :
    2 ^ (52 + spacingExponent q) ≤ |q| := by
  unfold spacingExponent at h ⊢
  split at h
  · exact absurd h (lt_irrefl _)
  · next hq =>
    rw [if_neg hq]
    refine le_trans (zpow_le_zpow_right₀ one_le_two ?_) (two_zpow_log2_le_abs hq)
    omega

theorem minExponent_le_spacing (q : ℚ) : minExponent ≤ spacingExponent q := by
  unfold spacingExponent
  split
  · exact le_rfl
  · exact le_max_right _ _

/-! ## Rounding to a nearest number -/

/-- A multiple of a power of two that 53 significant bits can hold; there is no largest one. -/
def IsRepresentable (q : ℚ) : Prop :=
  ∃ m e : ℤ, |m| ≤ 2 ^ 53 ∧ minExponent ≤ e ∧ q = m * 2 ^ e

theorem isRepresentable_intCast {n : ℤ} (h : |n| ≤ 2 ^ 53) : IsRepresentable n :=
  ⟨n, 0, h, by decide, by rw [zpow_zero, mul_one]⟩

theorem isRepresentable_round (q : ℚ) : IsRepresentable (round q) := by
  refine ⟨significand q, spacingExponent q, ?_, minExponent_le_spacing q, rfl⟩
  have hpos : (0 : ℚ) < 2 ^ spacingExponent q := two_zpow_pos _
  have hlt : |q / 2 ^ spacingExponent q| ≤ (2 ^ 53 : ℤ) := by
    rw [abs_div, abs_of_pos hpos, div_le_iff₀ hpos]
    refine (abs_lt_two_zpow_spacing q).le.trans_eq ?_
    rw [zpow_add₀ two_ne_zero]
    norm_cast
  obtain ⟨hge, hle⟩ := abs_le.1 hlt
  refine abs_le.2 ⟨le_nearestInt ?_, nearestInt_le hle⟩
  exact_mod_cast hge

/-- The error of rounding in terms of the spacing. -/
theorem abs_sub_round_eq (q r : ℚ) :
    |q - r * 2 ^ spacingExponent q| = |q / 2 ^ spacingExponent q - r| * 2 ^ spacingExponent q := by
  have hpos : (0 : ℚ) < 2 ^ spacingExponent q := two_zpow_pos _
  rw [← abs_of_pos hpos, ← abs_mul, abs_of_pos hpos, sub_mul, div_mul_cancel₀ _ hpos.ne']

theorem abs_sub_round_le_multiple (q : ℚ) (z : ℤ) :
    |q - round q| ≤ |q - z * 2 ^ spacingExponent q| := by
  rw [round, abs_sub_round_eq, abs_sub_round_eq]
  exact mul_le_mul_of_nonneg_right (abs_sub_nearestInt_le _ z) (two_zpow_pos _).le

/-- No other number that 53 significant bits can hold is nearer than the rounded one. -/
theorem abs_sub_round_le (q : ℚ) {r : ℚ} (hr : IsRepresentable r) : |q - round q| ≤ |q - r| := by
  obtain ⟨m, e, hm, he, rfl⟩ := hr
  rcases le_or_gt (spacingExponent q) e with hle | hlt
  · obtain ⟨n, hn⟩ := Int.le.dest hle
    have hmultiple : (m : ℚ) * 2 ^ e = (m * 2 ^ n : ℤ) * 2 ^ spacingExponent q := by
      rw [← hn, zpow_add₀ two_ne_zero, zpow_natCast]
      push_cast
      ring
    rw [hmultiple]
    exact abs_sub_round_le_multiple q _
  · -- the spacing of `r` is finer, so `r` lies closer to zero than the power of two below `q`
    have hq := two_zpow_spacing_le_abs (he.trans_lt hlt)
    have hr : |(m : ℚ) * 2 ^ e| ≤ 2 ^ (52 + spacingExponent q) := by
      rw [abs_mul, abs_of_pos (two_zpow_pos e)]
      calc |(m : ℚ)| * 2 ^ e ≤ 2 ^ 53 * 2 ^ e :=
            mul_le_mul_of_nonneg_right (by exact_mod_cast hm) (two_zpow_pos e).le
        _ = 2 ^ (53 + e) := by rw [zpow_add₀ two_ne_zero]; norm_cast
        _ ≤ 2 ^ (52 + spacingExponent q) := zpow_le_zpow_right₀ one_le_two (by omega)
    have hpower : (2 : ℚ) ^ (52 + spacingExponent q) = (2 ^ 52 : ℤ) * 2 ^ spacingExponent q := by
      rw [zpow_add₀ two_ne_zero]
      norm_cast
    obtain ⟨hge, hle⟩ := abs_le.1 hr
    rcases le_total 0 q with hsign | hsign
    · refine (abs_sub_round_le_multiple q (2 ^ 52)).trans ?_
      rw [abs_of_nonneg hsign] at hq
      rw [← hpower, abs_of_nonneg (sub_nonneg.2 hq), abs_of_nonneg (sub_nonneg.2 (hle.trans hq))]
      linarith
    · refine (abs_sub_round_le_multiple q (-2 ^ 52)).trans ?_
      rw [abs_of_nonpos hsign] at hq
      rw [Int.cast_neg, neg_mul, ← hpower, abs_of_nonpos (by linarith),
        abs_of_nonpos (by linarith)]
      linarith

theorem round_of_isRepresentable (h : IsRepresentable q) : round q = q := by
  have hle := abs_sub_round_le q h
  rw [sub_self, abs_zero, abs_nonpos_iff] at hle
  exact (sub_eq_zero.1 hle).symm

theorem round_intCast {n : ℤ} (h : |n| ≤ 2 ^ 53) : round n = n :=
  round_of_isRepresentable (isRepresentable_intCast h)

theorem round_zero : round 0 = 0 := by
  exact_mod_cast round_intCast (n := 0) (by norm_num)

/-- Two numbers whose rounded ones are in the wrong order would both be nearer to the rounded one of
the other. -/
theorem round_mono (h : p ≤ q) : round p ≤ round q := by
  by_contra hgt
  have hlt : p < q := h.lt_of_ne fun heq => hgt (heq ▸ le_rfl)
  have hp := sq_le_sq.2 (abs_sub_round_le p (isRepresentable_round q))
  have hq := sq_le_sq.2 (abs_sub_round_le q (isRepresentable_round p))
  have hcross := mul_pos (sub_pos.2 hlt) (sub_pos.2 (not_le.1 hgt))
  linarith

/-! ## The relative error -/

theorem abs_sub_round_le_mul (h : 2 ^ (-1022 : ℤ) ≤ |q|) :
    |q - round q| ≤ 2 ^ (-53 : ℤ) * |q| := by
  have hspacing : 2 ^ (52 + spacingExponent q) ≤ |q| := by
    rcases (minExponent_le_spacing q).eq_or_lt with heq | hlt
    · rw [← heq]
      exact h
    · exact two_zpow_spacing_le_abs hlt
  calc |q - round q| = |q / 2 ^ spacingExponent q - significand q| * 2 ^ spacingExponent q :=
        abs_sub_round_eq q _
    _ ≤ 1 / 2 * 2 ^ spacingExponent q :=
        mul_le_mul_of_nonneg_right (abs_sub_nearestInt_le_half _) (two_zpow_pos _).le
    _ = 2 ^ (-53 : ℤ) * 2 ^ (52 + spacingExponent q) := by
        rw [zpow_add₀ two_ne_zero, ← mul_assoc]
        norm_num
    _ ≤ 2 ^ (-53 : ℤ) * |q| := mul_le_mul_of_nonneg_left hspacing (two_zpow_pos _).le

theorem abs_sub_round_intCast_le (n : ℤ) : |n - round n| ≤ 2 ^ (-53 : ℤ) * |(n : ℚ)| := by
  rcases eq_or_ne n 0 with rfl | hn
  · rw [Int.cast_zero, round_zero, sub_self, abs_zero, mul_zero]
  · apply abs_sub_round_le_mul
    calc (2 : ℚ) ^ (-1022 : ℤ) ≤ 2 ^ (0 : ℤ) := zpow_le_zpow_right₀ one_le_two (by norm_num)
      _ ≤ |(n : ℚ)| := by exact_mod_cast Int.one_le_abs hn

end ExactLinAlg.Binary64
