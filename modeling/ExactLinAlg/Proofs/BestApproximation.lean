import ExactLinAlg.Proofs.Expansion
import ExactLinAlg.Proofs.LargerBound
import ExactLinAlg.Proofs.Neighbours
import ExactLinAlg.Proofs.Overflow
import Mathlib

/-!
# Best approximations

A search looks at convergents only, but the fraction nearest to a number need not be one: between
the last convergent that a bound on the denominator allows and the first one that it excludes, there
are intermediate fractions. The one with the largest denominator within the bound
(`Search.intermediate`) is a neighbour of the last convergent
(`Search.Latest.adjacent_intermediate`), and the number lies between the two up to rounding
(`Search.Run.exists_mem_uIcc`). So one of the two is the best approximation, and whether the search
has found one as near is a question about these two only (`Fraction.ofBinary64_best_iff`).
-/

namespace ExactLinAlg

namespace Search

open Convergent

variable {bound : Int64} {x y rest : ℚ} {s t : Search} {c : Convergent} {cs : List Convergent}

/-! ## Why a search stops -/

/-- A convergent overflows with its term, with one of the products or with one of its parts. -/
theorem overflowsIff_next (prev last : Convergent) (rest : ℚ) :
    OverflowsIff (¬ Word.InRange rest.floor ∨ ¬ Word.InRange (rest.floor * last.num.toInt) ∨
      ¬ Word.InRange (prev.num.toInt + rest.floor * last.num.toInt) ∨
      ¬ Word.InRange (rest.floor * last.den.toInt) ∨
      ¬ Word.InRange (prev.den.toInt + rest.floor * last.den.toInt))
      (Convergent.next prev last rest) := by
  refine (Word.overflowsIff_ofInt _).bind fun term hterm => ?_
  rw [← Word.ofInt_eq_ok_iff.1 hterm]
  refine (Word.overflowsIff_mul _ _).bind fun left hleft => ?_
  rw [← Word.mul_eq_ok_iff.1 hleft]
  refine (Word.overflowsIff_add _ _).bind fun num _ => ?_
  refine (Word.overflowsIff_mul _ _).bind fun right hright => ?_
  rw [← Word.mul_eq_ok_iff.1 hright]
  exact (Word.overflowsIff_add _ _).bind_of_exists fun den => ⟨_, rfl⟩

/-- If the numerator of the next convergent is a word, a search stops because of the denominator. -/
theorem lt_den_of_next?_eq_none (hs : Underway s rest) (hlatest : Latest bound s)
    (hnone : s.next? bound rest = none)
    (hnum : s.prev.den.toInt + rest.floor * s.last.den.toInt ≤ bound.toInt →
      s.prev.num.toInt + rest.floor * s.last.num.toInt < 2 ^ 63) :
    bound.toInt < s.prev.den.toInt + rest.floor * s.last.den.toInt := by
  by_contra hle
  have hden := not_lt.1 hle
  have hfloor : 0 ≤ rest.floor := Rat.le_floor_iff.2 (by exact_mod_cast hs.rest_nonneg)
  have hterm : rest.floor ≤ rest.floor * s.last.den.toInt :=
    le_mul_of_one_le_right hfloor hlatest.last_den
  have hleft : 0 ≤ rest.floor * s.last.num.toInt := mul_nonneg hfloor hs.last_num
  have hbound := Word.inRange_iff.1 (Word.inRange_toInt bound)
  have hprev := hs.prev_num
  have hprev' := hs.prev_den
  obtain ⟨c, hc⟩ := (overflowsIff_next s.prev s.last rest).2.2 (by
    have hnum := hnum hden
    simp only [Word.inRange_iff]
    omega)
  have hsome : s.next? bound rest = some c := by
    refine next?_eq_some_iff.2 ⟨hc, Int64.le_iff_toInt_le.2 ?_⟩
    rw [(toInt_next hc).2]
    exact hden
  cases hnone.symm.trans hsome

/-! ## The intermediate fraction -/

/-- How often the latest convergent can be joined to the one before it within a bound on the
denominator. -/
def joins (bound : Int64) (s : Search) : ℤ :=
  (bound.toInt - s.prev.den.toInt) / s.last.den.toInt

/-- The fraction within a bound on the denominator that follows when the latest convergent is joined
to the one before it as often as possible. -/
def intermediate (bound : Int64) (s : Search) : ℚ := s.expanded (s.joins bound)

theorem intermediate_eq : s.intermediate bound =
    (s.joins bound * s.last.num.toInt + s.prev.num.toInt : ℤ) /
      (s.joins bound * s.last.den.toInt + s.prev.den.toInt : ℤ) := by
  push_cast
  rfl

namespace Latest

variable (h : Latest bound s)
include h

theorem joins_nonneg : 0 ≤ s.joins bound :=
  Int.ediv_nonneg (sub_nonneg.2 (h.den_le_den.trans h.den_le)) h.last_den.le

theorem den_intermediate_pos :
    0 < s.joins bound * s.last.den.toInt + s.prev.den.toInt := by
  rcases h.prev_den.eq_or_lt with hzero | hpos
  · have hjoins : 0 < s.joins bound := by
      rw [joins, ← hzero, sub_zero, ← Int.add_one_le_iff, zero_add,
        Int.le_ediv_iff_mul_le h.last_den, one_mul]
      exact h.den_le
    exact add_pos_of_pos_of_nonneg (mul_pos hjoins h.last_den) h.prev_den
  · exact add_pos_of_nonneg_of_pos (mul_nonneg h.joins_nonneg h.last_den.le) hpos

theorem den_intermediate_le :
    s.joins bound * s.last.den.toInt + s.prev.den.toInt ≤ bound.toInt := by
  have hle := Int.ediv_mul_le (bound.toInt - s.prev.den.toInt) h.last_den.ne'
  rw [joins]
  linarith

theorem lt_den_add_den :
    bound.toInt < s.last.den.toInt + (s.joins bound * s.last.den.toInt + s.prev.den.toInt) := by
  have hlt := Int.lt_ediv_add_one_mul_self (bound.toInt - s.prev.den.toInt) h.last_den
  rw [joins]
  linarith

/-- The latest convergent and the intermediate fraction are neighbours. -/
theorem adjacent_intermediate :
    (s.joins bound * s.last.num.toInt + s.prev.num.toInt) * s.last.den.toInt -
        s.last.num.toInt * (s.joins bound * s.last.den.toInt + s.prev.den.toInt) = 1 ∨
      (s.joins bound * s.last.num.toInt + s.prev.num.toInt) * s.last.den.toInt -
        s.last.num.toInt * (s.joins bound * s.last.den.toInt + s.prev.den.toInt) = -1 := by
  rcases h.adjacent with hone | hone
  · exact Or.inr (by linear_combination -hone)
  · exact Or.inl (by linear_combination -hone)

/-- What is expanded lies on a fixed side of the latest convergent. -/
theorem toRat_sub_expanded {r : ℚ} (hr : 0 < r * s.last.den.toInt + s.prev.den.toInt) :
    s.last.toRat - s.expanded r =
      (s.last.num.toInt * s.prev.den.toInt - s.prev.num.toInt * s.last.den.toInt) *
        (1 / ((r * s.last.den.toInt + s.prev.den.toInt) * s.last.den.toInt)) := by
  have hden : (0 : ℚ) < s.last.den.toInt := by exact_mod_cast h.last_den
  rw [expanded, toRat, div_sub_div _ _ hden.ne' hr.ne', mul_one_div]
  congr 1 <;> ring

theorem abs_expanded_sub_toRat {r : ℚ} (hr : 0 < r * s.last.den.toInt + s.prev.den.toInt) :
    |s.expanded r - s.last.toRat| =
      1 / ((r * s.last.den.toInt + s.prev.den.toInt) * s.last.den.toInt) := by
  have hden : (0 : ℚ) < s.last.den.toInt := by exact_mod_cast h.last_den
  rw [abs_sub_comm, h.toRat_sub_expanded hr, abs_mul, h.adjacent.abs_cross, one_mul, abs_of_pos]
  exact one_div_pos.2 (mul_pos hr hden)

/-- The more is still to be expanded, the nearer it brings to the latest convergent. -/
theorem expanded_mem_uIcc {k r : ℚ} (hk : 0 < k * s.last.den.toInt + s.prev.den.toInt)
    (hle : k ≤ r) : s.expanded r ∈ Set.uIcc s.last.toRat (s.expanded k) := by
  have hden : (0 : ℚ) < s.last.den.toInt := by exact_mod_cast h.last_den
  have hkr : k * s.last.den.toInt + s.prev.den.toInt ≤ r * s.last.den.toInt + s.prev.den.toInt :=
    add_le_add_left (mul_le_mul_of_nonneg_right hle hden.le) _
  have hr := hk.trans_le hkr
  have hinv := one_div_le_one_div_of_le (mul_pos hk hden) (mul_le_mul_of_nonneg_right hkr hden.le)
  have hpos := one_div_pos.2 (mul_pos hr hden)
  have hk' := h.toRat_sub_expanded hk
  have hr' := h.toRat_sub_expanded hr
  rw [Set.mem_uIcc]
  rcases (abs_eq zero_le_one).1 h.adjacent.abs_cross with hone | hone
  · right
    rw [hone] at hk' hr'
    constructor <;> linarith
  · left
    rw [hone] at hk' hr'
    constructor <;> linarith

end Latest

/-! ## Small bounds -/

section Small

variable (h : Latest bound s) (hs : Underway s rest)

include hs in
/-- What is still to be expanded gives a denominator within one step of that of the next
convergent. -/
theorem Underway.next_den_near :
    (s.prev.den.toInt + rest.floor * s.last.den.toInt : ℚ) ≤
        rest * s.last.den.toInt + s.prev.den.toInt ∧
      rest * s.last.den.toInt + s.prev.den.toInt ≤
        (s.prev.den.toInt + rest.floor * s.last.den.toInt : ℚ) + s.last.den.toInt := by
  have hden : (0 : ℚ) ≤ s.last.den.toInt := by exact_mod_cast hs.last_den
  have hfloor := mul_le_mul_of_nonneg_right (Rat.floor_le rest) hden
  have hlt := mul_le_mul_of_nonneg_right (Rat.lt_floor_add_one rest).le hden
  push_cast at hlt
  constructor <;> linarith

include h hs in
theorem one_le_next_den : (1 : ℚ) ≤ s.prev.den.toInt + rest.floor * s.last.den.toInt := by
  exact_mod_cast (h.last_den.trans_le hs.grows).trans_le (le_add_of_nonneg_left h.prev_den)

include h hs in
/-- The numerator of the next convergent is about its denominator times the number that is
expanded. -/
theorem next_num_le :
    (s.prev.num.toInt + rest.floor * s.last.num.toInt : ℚ) ≤
      (s.prev.den.toInt + rest.floor * s.last.den.toInt) * s.expanded rest + 1 := by
  have hle := (one_le_next_den h hs).trans hs.next_den_near.1
  have hpos : 0 < rest * s.last.den.toInt + s.prev.den.toInt := one_pos.trans_le hle
  have hlast : (s.last.den.toInt : ℚ) ≤ rest * s.last.den.toInt + s.prev.den.toInt := by
    have hgrows : (s.last.den.toInt : ℚ) ≤ s.prev.den.toInt + rest.floor * s.last.den.toInt := by
      exact_mod_cast hs.grows.trans (le_add_of_nonneg_left h.prev_den)
    exact hgrows.trans hs.next_den_near.1
  have hfloor := Rat.floor_le rest
  have hlt := Rat.lt_floor_add_one rest
  push_cast at hlt
  have hdiff : (rest - rest.floor) *
      ((s.prev.num.toInt : ℚ) * s.last.den.toInt - s.last.num.toInt * s.prev.den.toInt) ≤ 1 := by
    refine (le_abs_self _).trans ?_
    rw [abs_mul, abs_sub_comm (_ * _), mul_comm (s.prev.num.toInt : ℚ),
      mul_comm (s.last.den.toInt : ℚ), h.adjacent.abs_cross, mul_one,
      abs_of_nonneg (sub_nonneg.2 hfloor)]
    linarith
  rw [expanded, mul_div_assoc', div_add_one hpos.ne', le_div_iff₀ hpos]
  linarith

include h hs in
/-- As long as the denominators are small, the numerators are words. -/
theorem next_num_lt {m j : ℕ} (hm : m < 2 ^ 53) (hx : x = m / 2 ^ j)
    (hyx : |s.expanded rest - x| ≤ 3 * 2 ^ (-53 : ℤ)) (hbound : bound.toInt ≤ 2 ^ 25)
    (hden : s.prev.den.toInt + rest.floor * s.last.den.toInt ≤ bound.toInt) :
    s.prev.num.toInt + rest.floor * s.last.num.toInt < 2 ^ 63 := by
  have hlast : (1 : ℚ) ≤ s.last.den.toInt := by exact_mod_cast h.last_den
  have hlast' : (s.last.den.toInt : ℚ) ≤ 2 ^ 25 := by exact_mod_cast h.den_le.trans hbound
  have hn := one_le_next_den h hs
  have hn' : (s.prev.den.toInt + rest.floor * s.last.den.toInt : ℚ) ≤ 2 ^ 25 := by
    exact_mod_cast hden.trans hbound
  obtain ⟨hnear, hnear'⟩ := hs.next_den_near
  have hdistance := h.abs_expanded_sub_toRat (one_pos.trans_le (hn.trans hnear))
  have hmul := mul_le_of_near hm hx hlast hlast' hn hn' hnear hnear' hyx hdistance fun hne => by
    have hfar := one_div_le_abs_sub (P := s.last.num.toInt) (u := m) (v := 2 ^ j) h.last_den
      (by positivity) (by push_cast; rwa [← hx])
    push_cast at hfar
    rwa [← hx] at hfar
  -- The numerator is about the denominator times `x`, of which `hmul` says that it is small.
  have hnum := next_num_le h hs
  have hlt : (s.prev.num.toInt + rest.floor * s.last.num.toInt : ℚ) < 2 ^ 63 := by
    generalize (s.prev.den.toInt + rest.floor * s.last.den.toInt : ℚ) = n at *
    have hy := mul_le_mul_of_nonneg_left (abs_le.1 hyx).2 (zero_le_one.trans hn)
    have herror : n * (3 * 2 ^ (-53 : ℤ)) ≤ 2 ^ 25 * (3 * 2 ^ (-53 : ℤ)) :=
      mul_le_mul_of_nonneg_right hn' (by norm_num)
    norm_num at *
    linarith
  exact_mod_cast hlt

end Small

/-! ## What a search under a small bound ends with -/

/-- One of the two last fractions is nearest to a number that lies between them up to rounding. -/
theorem Latest.min_abs_sub_le (h : Latest bound s) (hbound : bound.toInt ≤ 2 ^ 25)
    (hy : y ∈ Set.uIcc s.last.toRat (s.intermediate bound)) (hyx : |y - x| ≤ 3 * 2 ^ (-53 : ℤ))
    {u v : ℤ} (hv : 1 ≤ v) (hv' : v ≤ bound.toInt) :
    min |x - s.last.toRat| |x - s.intermediate bound| ≤ |x - u / v| := by
  have hden := h.den_intermediate_pos
  have hsum := h.lt_den_add_den
  have hle := h.den_intermediate_le
  have hadj := h.adjacent_intermediate
  rw [intermediate_eq] at hy ⊢
  exact min_abs_sub_le_of_mem_uIcc h.last_den hden hv (h.den_le.trans hbound) (hle.trans hbound)
    (hv'.trans hbound) hadj (hv'.trans_lt hsum) hy hyx

/-- A search for a number with few bits ends next to it: between the latest convergent and the
intermediate fraction, up to rounding. -/
theorem Run.exists_mem_uIcc (h : Run bound x .start x cs t) (hcs : cs ≠ []) {m j : ℕ}
    (hm : m < 2 ^ 53) (hx : x = m / 2 ^ j) (hbound : bound.toInt ≤ 2 ^ 25) :
    ∃ y ∈ Set.uIcc t.last.toRat (t.intermediate bound), |y - x| ≤ 3 * 2 ^ (-53 : ℤ) := by
  have hstart := underway_start (hx ▸ by positivity : 0 ≤ x)
  have hlatest := h.latest hstart hcs
  obtain ⟨y, hyx, rfl | ⟨r, hnone, hr, rfl⟩⟩ := h.exists_expanded hstart (by
    rw [expanded_start, drift_start, sub_self, abs_zero])
  · exact ⟨_, Set.left_mem_uIcc, hyx⟩
  · refine ⟨_, ?_, hyx⟩
    -- The next denominator is too large, so more is left than the latest convergent can be joined.
    have hlt := lt_den_of_next?_eq_none hr hlatest hnone (next_num_lt hlatest hr hm hx hyx hbound)
    have hjoins : t.joins bound ≤ r.floor := by
      have hlt' := hlatest.den_intermediate_le.trans_lt hlt
      rw [add_comm] at hlt'
      exact (lt_of_mul_lt_mul_right (lt_of_add_lt_add_left hlt') hlatest.last_den.le).le
    have hpos := hlatest.den_intermediate_pos
    refine hlatest.expanded_mem_uIcc (by exact_mod_cast hpos) ?_
    exact (Int.cast_le.2 hjoins).trans (Rat.floor_le r)

end Search

namespace Binary64

/-- A number with a fractional part has few bits behind a power of two. -/
theorem exists_abs_eq_div {bits : UInt64} {q : ℚ} (h : ofBits bits = .finite q) (hq : ¬ q.isInt) :
    ∃ m j : ℕ, m < 2 ^ 53 ∧ q.abs = m / 2 ^ j := by
  have hlt := abs_lt_of_not_isInt h hq
  obtain ⟨m, e, hm, habs⟩ := exists_abs_eq_of_ofBits h
  rcases le_total 0 e with he | he
  · obtain ⟨n, rfl⟩ := Int.eq_ofNat_of_zero_le he
    rw [zpow_natCast] at habs
    refine ⟨m * 2 ^ n, 0, ?_, ?_⟩
    · rw [habs] at hlt
      have : m * 2 ^ n < 2 ^ 52 := by exact_mod_cast hlt
      omega
    · rw [habs]
      push_cast
      ring
  · obtain ⟨n, hn⟩ := Int.eq_ofNat_of_zero_le (neg_nonneg.2 he)
    refine ⟨m, n, hm, ?_⟩
    rw [habs, ← zpow_natCast, ← hn, zpow_neg, div_inv_eq_mul]

end Binary64

namespace Fraction

open Convergent

variable {D : Int64} {x : ℚ} {cs : List Convergent} {t : Search} {r : Fraction}

/-- The fractions under a bound are as near to a number as to its absolute value. -/
theorem forall_le_abs_sub_iff {n : ℤ} {δ : ℚ} :
    (∀ u v : ℤ, 1 ≤ v → v ≤ n → δ ≤ |x - u / v|) ↔
      ∀ u v : ℤ, 1 ≤ v → v ≤ n → δ ≤ |x.abs - u / v| := by
  have hneg (y : ℚ) (u v : ℤ) : |y - (-u : ℤ) / v| = |-y - u / v| := by
    rw [← abs_neg]
    congr 1
    push_cast
    ring
  rw [ratAbs_eq_abs]
  rcases abs_choice x with h | h
  · rw [h]
  · rw [h]
    constructor
    · intro hle u v hv hv'
      rw [← hneg]
      exact hle (-u) v hv hv'
    · intro hle u v hv hv'
      rw [← neg_neg x, ← hneg]
      exact hle (-u) v hv hv'

/-- **When the nearest convergent is a best approximation.** For a number with a fractional part and
a bound of at most `2 ^ 25` on the denominator, the search gives a fraction. No other fraction
within the bound is nearer to the number than this one exactly if two are not: the last convergent
that the search generates, and the intermediate fraction next to it. -/
theorem ofBinary64_best_iff {bits : UInt64} (hbits : Binary64.ofBits bits = .finite x)
    (hx : ¬ x.isInt) (hD : 1 ≤ D) (hD' : D.toInt ≤ 2 ^ 25) :
    ∃ r cs t, ofBinary64 (Binary64.ofBits bits) D = .ok r ∧ IsFound D x cs t r ∧
      ((∀ u v : ℤ, 1 ≤ v → v ≤ D.toInt → |x - r.toRat| ≤ |x - u / v|) ↔
        |x - r.toRat| ≤ |x.abs - t.last.toRat| ∧
          |x - r.toRat| ≤ |x.abs - t.intermediate D|) := by
  obtain ⟨r, hr, cs, t, h⟩ := exists_of_not_isInt hbits hx D
  rw [Word.max_one hD] at h
  obtain ⟨m, j, hm, hmj⟩ := Binary64.exists_abs_eq_div hbits hx
  have hcs := h.run.ne_nil hD (Binary64.inRange_floor_of_not_isInt hbits hx)
  have hlatest := h.run.latest (Search.underway_start Rat.abs_nonneg) hcs
  obtain ⟨y, hy, hyx⟩ := h.run.exists_mem_uIcc hcs hm hmj hD'
  rw [hbits]
  refine ⟨r, cs, t, hr, h, ?_⟩
  rw [forall_le_abs_sub_iff]
  constructor
  · intro hbest
    refine ⟨hbest _ _ hlatest.last_den hlatest.den_le, ?_⟩
    rw [t.intermediate_eq]
    exact hbest _ _ hlatest.den_intermediate_pos hlatest.den_intermediate_le
  · rintro ⟨hlast, hintermediate⟩ u v hv hv'
    exact (le_min hlast hintermediate).trans (hlatest.min_abs_sub_le hD' hy hyx hv hv')

/-- The convergents of a number next to `0.3` under the bound ten are `0/1`, `1/3`, `2/7` and
`3/10`, and the intermediate fraction is `2/7`. -/
theorem ofBinary64_best_iff_of_three_tenths :
    let x : ℚ := 5404319552844595 / 2 ^ 54
    let a : Fraction := ⟨3, 10, by decide, by decide, by decide⟩
    Binary64.ofBits 0x3fd3333333333333 = .finite x ∧ ¬ x.isInt ∧ (1 : Int64) ≤ 10 ∧
      (10 : Int64).toInt ≤ 2 ^ 25 ∧ ofBinary64 (Binary64.ofBits 0x3fd3333333333333) 10 = .ok a ∧
      ∃ cs t, IsFound 10 x cs t a ∧
        ((∀ u v : ℤ, 1 ≤ v → v ≤ (10 : Int64).toInt → |x - a.toRat| ≤ |x - u / v|) ↔
          |x - a.toRat| ≤ |x.abs - t.last.toRat| ∧
            |x - a.toRat| ≤ |x.abs - t.intermediate 10|) := by
  intro x a
  have hbits : Binary64.ofBits 0x3fd3333333333333 = .finite x := by
    decide +kernel
  have hx : ¬ x.isInt := by
    decide +kernel
  have ha : ofBinary64 (Binary64.ofBits 0x3fd3333333333333) 10 = .ok a := by
    decide +kernel
  obtain ⟨r, cs, t, hr, hfound, hiff⟩ :=
    ofBinary64_best_iff hbits hx (show (1 : Int64) ≤ 10 by decide) (by decide)
  cases Except.ok.inj (hr.symm.trans ha)
  exact ⟨hbits, hx, by decide, by decide, ha, cs, t, hfound, hiff⟩

/-- What is found need not be a best approximation. Next to `π` and under the bound one hundred, an
intermediate fraction is nearer than every convergent. Next to `2 ^ 40 + 1/3` and under the bound
`4096`, the number itself is the last convergent, but the distance of an earlier one is already
rounded to zero. -/
theorem ofBinary64_not_best :
    (let x : ℚ := 884279719003555 / 2 ^ 48
      let a : Fraction := ⟨22, 7, by decide, by decide, by decide⟩
      Binary64.ofBits 0x400921fb54442d18 = .finite x ∧
        ofBinary64 (Binary64.ofBits 0x400921fb54442d18) 100 = .ok a ∧
        |x - (311 : ℤ) / (99 : ℤ)| < |x - a.toRat|) ∧
    (let x : ℚ := 4503599627371861 / 4096
      let a : Fraction := ⟨3298534883329, 3, by decide, by decide, by decide⟩
      Binary64.ofBits 0x4270000000000555 = .finite x ∧
        ofBinary64 (Binary64.ofBits 0x4270000000000555) 4096 = .ok a ∧
        |x - (4503599627371861 : ℤ) / (4096 : ℤ)| < |x - a.toRat|) := by
  constructor <;> decide +kernel

end Fraction

end ExactLinAlg
