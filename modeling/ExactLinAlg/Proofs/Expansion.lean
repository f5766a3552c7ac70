import ExactLinAlg.Proofs.Rounding
import ExactLinAlg.Proofs.Search
import Mathlib

/-!
# The number that a search expands

In every round, the two latest convergents and what is still to be expanded determine the number of
which they are the exact expansion (`Search.expanded`). At first this is the number that the search
is for. In a round it changes only by the rounding of one reciprocal, divided by a product of the
denominators (`Search.abs_expanded_visit_le`). As these grow, all rounds together move it by
at most three units of `2 ^ (-53)` (`Search.Run.exists_expanded`).
-/

namespace ExactLinAlg

namespace Convergent

/-- The value of a convergent. -/
def toRat (c : Convergent) : ℚ := c.num.toInt / c.den.toInt

theorem Adjacent.abs_cross {c d : Convergent} (h : Adjacent c d) :
    |(d.num.toInt : ℚ) * c.den.toInt - c.num.toInt * d.den.toInt| = 1 := by
  have hint : |d.num.toInt * c.den.toInt - c.num.toInt * d.den.toInt| = 1 :=
    (abs_eq zero_le_one).2 h
  exact_mod_cast hint

end Convergent

namespace Search

open Convergent

variable {bound : Int64} {x y rest : ℚ} {s t : Search} {c : Convergent} {cs : List Convergent}

/-! ## The number that a search expands -/

/-- The number whose exact expansion has the two latest convergents of a search and goes on with
that of `rest`. -/
def expanded (s : Search) (rest : ℚ) : ℚ :=
  (rest * s.last.num.toInt + s.prev.num.toInt) / (rest * s.last.den.toInt + s.prev.den.toInt)

theorem expanded_start (x : ℚ) : start.expanded x = x := by
  have hnum : start.last.num.toInt = 1 ∧ start.prev.num.toInt = 0 := by decide
  have hden : start.last.den.toInt = 0 ∧ start.prev.den.toInt = 1 := by decide
  rw [expanded, hnum.1, hnum.2, hden.1, hden.2]
  simp

/-- How far the same two convergents carry two different numbers apart. -/
theorem abs_expanded_sub_expanded (hadj : s.prev.Adjacent s.last) {r r' : ℚ}
    (hr : 0 < r * s.last.den.toInt + s.prev.den.toInt)
    (hr' : 0 < r' * s.last.den.toInt + s.prev.den.toInt) :
    |s.expanded r - s.expanded r'| = |r - r'| /
      ((r * s.last.den.toInt + s.prev.den.toInt) * (r' * s.last.den.toInt + s.prev.den.toInt)) := by
  rw [expanded, expanded, div_sub_div _ _ hr.ne' hr'.ne', abs_div, abs_of_pos (mul_pos hr hr')]
  congr 1
  rw [← mul_one |r - r'|, ← hadj.abs_cross, ← abs_mul]
  congr 1
  ring

/-- Expanding one more term exactly does not change the number. -/
theorem expanded_visit (hnext : s.next? bound rest = some c) (hfract : fract rest ≠ 0) :
    (s.visit x c).expanded (1 / fract rest) = s.expanded rest := by
  obtain ⟨hnum, hden⟩ := toInt_next (next?_eq_some_iff.1 hnext).1
  rw [expanded, expanded, last_visit, prev_visit, hnum, hden]
  have hsplit : rest = fract rest + rest.floor := by rw [fract]; ring
  generalize fract rest = f at hfract hsplit ⊢
  generalize (rest.floor : ℤ) = a at hsplit ⊢
  subst hsplit
  push_cast
  rw [← mul_div_mul_left _ _ hfract]
  congr 1
  · field_simp
    ring
  · field_simp
    ring

/-- Terms add up to less than their first. -/
theorem one_div_le_sub {a b c : ℚ} (ha : 0 ≤ a) (hb : 0 ≤ b) (hc : 1 ≤ c) (hsum : 0 < a + b)
    (habc : a + b ≤ c) : 1 / (c * (b + c)) ≤ 3 / (a + 2 * b) - 3 / (b + 2 * c) := by
  have hfirst : 0 < a + 2 * b := by linarith
  have hsecond : 0 < b + 2 * c := by linarith
  have hthird : 0 < c * (b + c) := mul_pos (by linarith) (by linarith)
  rw [div_sub_div _ _ hfirst.ne' hsecond.ne', div_le_div_iff₀ hthird (mul_pos hfirst hsecond)]
  have h1 : a + 2 * b ≤ b + c := by linarith
  have h2 : b + 2 * c ≤ 3 * c := by linarith
  calc 1 * ((a + 2 * b) * (b + 2 * c)) ≤ (b + c) * (3 * c) := by
        rw [one_mul]
        exact mul_le_mul h1 h2 hsecond.le (by linarith)
    _ ≤ (3 * c) * (c * (b + c)) := by
        rw [mul_comm]
        exact mul_le_mul_of_nonneg_left (le_mul_of_one_le_left (by linarith) hc) (by linarith)
    _ ≤ (3 * (b + 2 * c) - (a + 2 * b) * 3) * (c * (b + c)) :=
        mul_le_mul_of_nonneg_right (by linarith) hthird.le

theorem one_le_one_div_fract (h : fract x ≠ 0) : 1 ≤ 1 / fract x := by
  have hfloor := Rat.floor_le x
  have hlt := Rat.lt_floor_add_one x
  push_cast at hlt
  have hpos : 0 < fract x := lt_of_le_of_ne (sub_nonneg.2 hfloor) h.symm
  rw [le_div_iff₀ hpos, one_mul, fract]
  linarith

theorem abs_one_div_sub_reciprocal_le (h : fract x ≠ 0) :
    |1 / fract x - reciprocal (fract x)| ≤ 2 ^ (-53 : ℤ) * (1 / fract x) := by
  have hone := one_le_one_div_fract h
  have habs : |1 / fract x| = 1 / fract x := abs_of_pos (one_pos.trans_le hone)
  have hsmall : (2 : ℚ) ^ (-1022 : ℤ) ≤ 1 := zpow_le_one_of_nonpos₀ one_le_two (by norm_num)
  have hround := Binary64.abs_sub_round_le_mul (q := 1 / fract x) (by
    rw [habs]
    exact hsmall.trans hone)
  rwa [habs] at hround

/-- How much less an error of `r` matters behind two denominators. -/
theorem abs_sub_div_le {ε Q Q' r r' : ℚ} (hQ : 1 ≤ Q) (hQ' : 0 ≤ Q') (hr : 1 ≤ r) (hr' : 1 ≤ r')
    (h : |r' - r| ≤ ε * r) :
    |r' - r| / ((r' * Q + Q') * (r * Q + Q')) ≤ ε * (1 / (Q * (Q' + Q))) := by
  have hQ₀ : 0 < Q := by linarith
  have hr₀ : 0 < r := by linarith
  calc |r' - r| / ((r' * Q + Q') * (r * Q + Q')) ≤ ε * r / ((Q' + Q) * (r * Q)) := by
        refine div_le_div₀ ((abs_nonneg _).trans h) h (by positivity) ?_
        refine mul_le_mul ?_ (by linarith) (by positivity) (by positivity)
        rw [add_comm]
        exact add_le_add_left (le_mul_of_one_le_left hQ₀.le hr') Q'
    _ = ε * (1 / (Q * (Q' + Q))) := by field_simp

/-- The reciprocal in one round is off by at most one part of `2 ^ 53`, which moves the number that
is expanded by less and less. -/
theorem abs_expanded_visit_le (hs : Underway s rest) (hnext : s.next? bound rest = some c)
    (hfract : fract rest ≠ 0) :
    |(s.visit x c).expanded (reciprocal (fract rest)) - s.expanded rest| ≤
      2 ^ (-53 : ℤ) * (1 / ((c.den.toInt : ℚ) * (s.last.den.toInt + c.den.toInt))) := by
  have hvisit := hs.visit hnext x hfract
  have hle := one_le_reciprocal_fract hfract
  have hone := one_le_one_div_fract hfract
  have hround := abs_one_div_sub_reciprocal_le hfract
  have hden : (1 : ℚ) ≤ c.den.toInt := by exact_mod_cast (hs.precedes hnext).den_pos
  have hlast : (0 : ℚ) ≤ s.last.den.toInt := by exact_mod_cast hs.last_den
  rw [abs_sub_comm] at hround
  rw [← expanded_visit (x := x) hnext hfract, abs_expanded_sub_expanded hvisit.adjacent]
  all_goals rw [last_visit, prev_visit]
  · exact abs_sub_div_le hden hlast hone hle hround
  · positivity
  · positivity

/-- What the rounds before `s` can have moved the number that is expanded. -/
def drift (s : Search) : ℚ := 2 ^ (-53 : ℤ) * (3 - 3 / (s.prev.den.toInt + 2 * s.last.den.toInt))

theorem drift_start : start.drift = 0 := by decide +kernel

theorem drift_add_le (hs : Underway s rest) (hnext : s.next? bound rest = some c) (x : ℚ) :
    s.drift + 2 ^ (-53 : ℤ) * (1 / ((c.den.toInt : ℚ) * (s.last.den.toInt + c.den.toInt))) ≤
      (s.visit x c).drift := by
  rw [drift, drift, last_visit, prev_visit, ← mul_add]
  refine mul_le_mul_of_nonneg_left ?_ (Binary64.two_zpow_pos _).le
  have hsum := hs.den_add_den_le hnext
  have h := one_div_le_sub (a := s.prev.den.toInt) (b := s.last.den.toInt) (c := c.den.toInt)
    (by exact_mod_cast hs.prev_den) (by exact_mod_cast hs.last_den)
    (by exact_mod_cast (hs.precedes hnext).den_pos) (by exact_mod_cast hs.den_pos)
    (by exact_mod_cast hsum)
  linarith

theorem drift_le (hs : Underway s rest) : s.drift ≤ 3 * 2 ^ (-53 : ℤ) := by
  have hpos : (0 : ℚ) ≤ s.prev.den.toInt + 2 * s.last.den.toInt := by
    exact_mod_cast add_nonneg hs.prev_den (mul_nonneg zero_le_two hs.last_den)
  rw [drift, mul_comm]
  refine mul_le_mul_of_nonneg_right ?_ (Binary64.two_zpow_pos _).le
  exact sub_le_self _ (div_nonneg zero_le_three hpos)

/-! ## The end of a search -/

/-- Where nothing is left, the new convergent is the number that is expanded. -/
theorem toRat_eq_expanded (hnext : s.next? bound rest = some c) (hfract : fract rest = 0) :
    c.toRat = s.expanded rest := by
  obtain ⟨hnum, hden⟩ := toInt_next (next?_eq_some_iff.1 hnext).1
  have hrest : rest = rest.floor := sub_eq_zero.1 hfract
  rw [toRat, expanded, hnum, hden]
  push_cast
  rw [← hrest, add_comm (s.prev.num.toInt : ℚ), add_comm (s.prev.den.toInt : ℚ)]

/-- A search ends where it has arrived at the number that it expands, or where the next convergent
is not allowed, and has hardly moved away from `x` so far. -/
theorem Run.exists_expanded (h : Run bound x s rest cs t) (hs : Underway s rest)
    (hx : |s.expanded rest - x| ≤ s.drift) :
    ∃ y, |y - x| ≤ 3 * 2 ^ (-53 : ℤ) ∧
      (t.last.toRat = y ∨ ∃ r, t.next? bound r = none ∧ Underway t r ∧ t.expanded r = y) := by
  induction h with
  | stop hnone => exact ⟨_, hx.trans (drift_le hs), Or.inr ⟨_, hnone, hs, rfl⟩⟩
  | finish hnext hfract =>
    refine ⟨_, hx.trans (drift_le hs), Or.inl ?_⟩
    rw [last_visit]
    exact toRat_eq_expanded hnext hfract
  | round hnext hfract _ ih =>
    -- What this round adds is what `drift` grows by.
    apply ih (hs.visit hnext x hfract)
    have hstep := abs_expanded_visit_le (x := x) hs hnext hfract
    exact (abs_sub_le _ _ _).trans ((add_comm _ _).trans_le
      ((add_le_add hx hstep).trans (drift_add_le hs hnext x)))

/-- What holds of the two latest convergents after a round. -/
structure Latest (bound : Int64) (s : Search) : Prop where
  adjacent : s.prev.Adjacent s.last
  prev_den : 0 ≤ s.prev.den.toInt
  den_le_den : s.prev.den.toInt ≤ s.last.den.toInt
  last_den : 0 < s.last.den.toInt
  den_le : s.last.den.toInt ≤ bound.toInt

theorem latest_visit (hs : Underway s rest) (hnext : s.next? bound rest = some c) (x : ℚ) :
    Latest bound (s.visit x c) := by
  have hc := hs.precedes hnext
  constructor <;> simp only [last_visit, prev_visit]
  · exact hc.adjacent
  · exact hs.last_den
  · exact hc.le_den
  · exact hc.den_pos
  · exact Int64.le_iff_toInt_le.1 hc.den_le

theorem Run.latest_of_latest (h : Run bound x s rest cs t) (hs : Underway s rest)
    (hlatest : Latest bound s) : Latest bound t := by
  induction h with
  | stop => exact hlatest
  | finish hnext => exact latest_visit hs hnext x
  | round hnext hfract _ ih => exact ih (hs.visit hnext x hfract) (latest_visit hs hnext x)

theorem Run.latest (h : Run bound x s rest cs t) (hs : Underway s rest) (hcs : cs ≠ []) :
    Latest bound t := by
  cases h with
  | stop => exact absurd rfl hcs
  | finish hnext => exact latest_visit hs hnext x
  | round hnext hfract hrun =>
    exact hrun.latest_of_latest (hs.visit hnext x hfract) (latest_visit hs hnext x)

end Search

end ExactLinAlg
