import Mathlib

/-!
# Neighbouring fractions

Two fractions whose cross products differ by one are neighbours: every fraction strictly between
them has a denominator of at least the sum of theirs (`add_le_den_of_between`). So among the
fractions with smaller denominators, one of the two is nearest to any number between them
(`min_abs_sub_le_of_between`). If the denominators are at most `2 ^ 25`, fractions are so far apart
that the number may also lie a few units of `2 ^ (-53)` outside (`min_abs_sub_le_of_mem_uIcc`).
-/

namespace ExactLinAlg

section Neighbours

variable {P Q S R u v : ℤ} {x y : ℚ} (hQ : 0 < Q) (hR : 0 < R) (hv : 0 < v)

include hQ hv in
/-- Two different fractions are at least as far apart as their denominators allow. -/
theorem one_div_le_abs_sub (hne : (u : ℚ) / v ≠ P / Q) :
    1 / ((v : ℚ) * Q) ≤ |(u : ℚ) / v - P / Q| := by
  have hQ' : (0 : ℚ) < Q := by exact_mod_cast hQ
  have hv' : (0 : ℚ) < v := by exact_mod_cast hv
  have hcross : u * Q - v * P ≠ 0 := by
    intro h
    apply hne
    rw [div_eq_div_iff hv'.ne' hQ'.ne', mul_comm (P : ℚ)]
    exact_mod_cast sub_eq_zero.1 h
  have hone : (1 : ℚ) ≤ |(u : ℚ) * Q - v * P| := by exact_mod_cast Int.one_le_abs hcross
  rw [div_sub_div _ _ hv'.ne' hQ'.ne', abs_div, abs_of_pos (mul_pos hv' hQ')]
  exact div_le_div_of_nonneg_right hone (mul_pos hv' hQ').le

include hQ hR hv in
/-- A fraction strictly between two neighbours has a denominator of at least the sum of theirs. -/
theorem add_le_den_of_between (hadj : S * Q - P * R = 1) (hl : (P : ℚ) / Q < u / v)
    (hr : (u : ℚ) / v < S / R) : Q + R ≤ v := by
  rw [div_lt_div_iff₀ (by exact_mod_cast hQ) (by exact_mod_cast hv)] at hl
  rw [div_lt_div_iff₀ (by exact_mod_cast hv) (by exact_mod_cast hR)] at hr
  have hl' : 1 ≤ u * Q - P * v := by
    have : P * v < u * Q := by exact_mod_cast hl
    omega
  have hr' : 1 ≤ S * v - u * R := by
    have : u * R < S * v := by exact_mod_cast hr
    omega
  calc Q + R ≤ Q * (S * v - u * R) + R * (u * Q - P * v) :=
        add_le_add (le_mul_of_one_le_right hQ.le hr') (le_mul_of_one_le_right hR.le hl')
    _ = (S * Q - P * R) * v := by ring
    _ = v := by rw [hadj, one_mul]

include hQ hR hv in
/-- No fraction with a smaller denominator comes nearer to a number between two neighbours than both
of these. -/
theorem min_abs_sub_le_of_between (hadj : S * Q - P * R = 1) (hsum : v < Q + R)
    (hl : (P : ℚ) / Q ≤ x) (hr : x ≤ S / R) : min |x - P / Q| |x - S / R| ≤ |x - u / v| := by
  rcases le_or_gt ((u : ℚ) / v) (P / Q) with h | h
  · refine min_le_of_left_le ?_
    rw [abs_of_nonneg (sub_nonneg.2 hl), abs_of_nonneg (sub_nonneg.2 (h.trans hl))]
    exact sub_le_sub_left h x
  · have hge : (S : ℚ) / R ≤ u / v := by
      by_contra hlt
      exact absurd (add_le_den_of_between hQ hR hv hadj h (not_le.1 hlt)) (not_le.2 hsum)
    refine min_le_of_right_le ?_
    rw [abs_of_nonpos (sub_nonpos.2 hr), abs_of_nonpos (sub_nonpos.2 (hr.trans hge))]
    exact neg_le_neg (sub_le_sub_left hge x)

include hQ hv in
/-- Where denominators are small, a fraction at a number leaves no room for another one. -/
theorem abs_sub_le_of_near (hQ' : Q ≤ 2 ^ 25) (hv' : v ≤ 2 ^ 25)
    (hx : |x - P / Q| ≤ 3 * 2 ^ (-53 : ℤ)) : |x - P / Q| ≤ |x - u / v| := by
  by_cases heq : (u : ℚ) / v = P / Q
  · rw [heq]
  · have hvQ : (v : ℚ) * Q ≤ 2 ^ 50 := by
      have hle := mul_le_mul hv' hQ' hQ.le (by norm_num)
      norm_num at hle
      exact_mod_cast hle
    have hinv := one_div_le_one_div_of_le (by exact_mod_cast mul_pos hv hQ) hvQ
    have hfar := hinv.trans (one_div_le_abs_sub hQ hv heq)
    have htriangle := abs_sub_le (u / v : ℚ) x (P / Q)
    rw [abs_sub_comm (u / v : ℚ) x] at htriangle
    norm_num at hx hfar
    linarith

include hQ hR hv in
theorem min_abs_sub_le_of_near_between (hQ' : Q ≤ 2 ^ 25)
    (hR' : R ≤ 2 ^ 25) (hv' : v ≤ 2 ^ 25) (hadj : S * Q - P * R = 1) (hsum : v < Q + R)
    (hl : (P : ℚ) / Q ≤ y) (hr : y ≤ S / R) (hyx : |y - x| ≤ 3 * 2 ^ (-53 : ℤ)) :
    min |x - P / Q| |x - S / R| ≤ |x - u / v| := by
  rcases lt_or_ge x (P / Q) with hlt | hle
  · refine min_le_of_left_le (abs_sub_le_of_near hQ hv hQ' hv' ?_)
    rw [abs_of_neg (sub_neg.2 hlt), neg_sub]
    exact ((sub_le_sub_right hl x).trans (le_abs_self _)).trans hyx
  · rcases lt_or_ge (S / R : ℚ) x with hgt | hge
    · refine min_le_of_right_le (abs_sub_le_of_near hR hv hR' hv' ?_)
      rw [abs_sub_comm] at hyx
      rw [abs_of_pos (sub_pos.2 hgt)]
      exact ((sub_le_sub_left hr x).trans (le_abs_self _)).trans hyx
    · exact min_abs_sub_le_of_between hQ hR hv hadj hsum hle hge

include hQ hR hv in
/-- A number that lies between two neighbours up to rounding is nearest to one of them, as far as
denominators are small. -/
theorem min_abs_sub_le_of_mem_uIcc (hQ' : Q ≤ 2 ^ 25)
    (hR' : R ≤ 2 ^ 25) (hv' : v ≤ 2 ^ 25) (hadj : S * Q - P * R = 1 ∨ S * Q - P * R = -1)
    (hsum : v < Q + R) (hy : y ∈ Set.uIcc (P / Q : ℚ) (S / R))
    (hyx : |y - x| ≤ 3 * 2 ^ (-53 : ℤ)) : min |x - P / Q| |x - S / R| ≤ |x - u / v| := by
  have hQ₀ : (0 : ℚ) < Q := by exact_mod_cast hQ
  have hR₀ : (0 : ℚ) < R := by exact_mod_cast hR
  rcases hadj with hadj | hadj
  · have hle : (P / Q : ℚ) ≤ S / R := by
      rw [div_le_div_iff₀ hQ₀ hR₀]
      exact_mod_cast (by omega : P * R ≤ S * Q)
    rw [Set.uIcc_of_le hle] at hy
    exact min_abs_sub_le_of_near_between hQ hR hv hQ' hR' hv' hadj hsum hy.1 hy.2 hyx
  · have hle : (S / R : ℚ) ≤ P / Q := by
      rw [div_le_div_iff₀ hR₀ hQ₀]
      exact_mod_cast (by omega : S * Q ≤ P * R)
    rw [Set.uIcc_of_ge hle] at hy
    rw [min_comm]
    exact min_abs_sub_le_of_near_between hR hQ hv hR' hQ' hv' (by linarith) (by linarith) hy.1 hy.2
      hyx

end Neighbours

/-! ## Numbers with few bits -/

/-- Two fractions cannot be near with a small and a large denominator. -/
theorem le_two_mul_of_abs_le {d B Q n : ℚ} (hd : 0 < d) (hd' : d ≤ 2 ^ 16) (hQ : 0 < Q)
    (hQ' : Q ≤ 2 ^ 25) (hn : 0 < n) (hnB : n ≤ B)
    (h : 1 / (d * Q) ≤ 3 * 2 ^ (-53 : ℤ) + 1 / (B * Q)) : n ≤ 2 * d := by
  have hB := hn.trans_le hnB
  have hmul : 1 / d ≤ 3 * 2 ^ (-53 : ℤ) * Q + 1 / B := by
    have := mul_le_mul_of_nonneg_right h hQ.le
    rwa [add_mul, one_div_mul_eq_div, one_div_mul_eq_div, div_mul_cancel_right₀ hQ.ne',
      div_mul_cancel_right₀ hQ.ne', ← one_div, ← one_div] at this
  have herror : 3 * 2 ^ (-53 : ℤ) * Q ≤ 1 / 2 * (1 / d) := by
    calc 3 * 2 ^ (-53 : ℤ) * Q ≤ 3 * 2 ^ (-53 : ℤ) * 2 ^ 25 :=
          mul_le_mul_of_nonneg_left hQ' (by norm_num)
      _ ≤ 1 / 2 * (1 / 2 ^ 16) := by norm_num
      _ ≤ 1 / 2 * (1 / d) :=
          mul_le_mul_of_nonneg_left (one_div_le_one_div_of_le hd hd') (by norm_num)
  have hinv := one_div_le_one_div_of_le hn hnB
  rw [← one_div_le_one_div (by linarith) hn, ← one_div_mul_one_div]
  linarith

/-- A number `x` with few bits, near which `y` is as far from a fraction `c` as a fraction with the
denominator `B` is from one with the denominator `Q`, is so small that a fraction near it with a
denominator next to `B` has few bits, too. -/
theorem mul_le_of_near {m j : ℕ} {n B Q x y c : ℚ} (hm : m < 2 ^ 53) (hx : x = m / 2 ^ j)
    (hQ : 1 ≤ Q) (hQ' : Q ≤ 2 ^ 25) (hn : 1 ≤ n) (hn' : n ≤ 2 ^ 25) (hnB : n ≤ B)
    (hBn : B ≤ n + Q) (hyx : |y - x| ≤ 3 * 2 ^ (-53 : ℤ)) (hyc : |y - c| = 1 / (B * Q))
    (hxc : x ≠ c → 1 / (2 ^ j * Q) ≤ |x - c|) : n * x ≤ 2 ^ 62 := by
  have hm' : (m : ℚ) < 2 ^ 53 := by exact_mod_cast hm
  rcases le_or_gt x (2 ^ 37) with hle | hgt
  · calc n * x ≤ 2 ^ 25 * 2 ^ 37 := mul_le_mul hn' hle (by rw [hx]; positivity) (by norm_num)
      _ = 2 ^ 62 := by norm_num
  · rw [hx, lt_div_iff₀ (by positivity)] at hgt
    have hj : (2 : ℚ) ^ j ≤ 2 ^ 16 := by linarith
    have hne : x ≠ c := by
      rintro rfl
      have hBQ : B * Q ≤ (2 ^ 25 + 2 ^ 25) * 2 ^ 25 :=
        mul_le_mul (hBn.trans (add_le_add hn' hQ')) hQ' (by linarith) (by norm_num)
      have hinv := one_div_le_one_div_of_le (mul_pos (by linarith) (by linarith)) hBQ
      rw [hyc] at hyx
      norm_num at hinv hyx
      linarith
    have hsum : 1 / (2 ^ j * Q) ≤ 3 * 2 ^ (-53 : ℤ) + 1 / (B * Q) := by
      have htriangle := abs_sub_le x y c
      rw [abs_sub_comm x y, hyc] at htriangle
      exact (hxc hne).trans (htriangle.trans (add_le_add_left hyx _))
    have hnj := le_two_mul_of_abs_le (by positivity) hj (by linarith) hQ' (by linarith) hnB hsum
    calc n * x ≤ 2 * 2 ^ j * (m / 2 ^ j) := by
          rw [hx]
          exact mul_le_mul_of_nonneg_right hnj (by positivity)
      _ = 2 * m := by field_simp
      _ ≤ 2 ^ 62 := by linarith

end ExactLinAlg
