import ExactLinAlg.Fraction.Binary64
import ExactLinAlg.Proofs.Order
import ExactLinAlg.Proofs.Search
import Mathlib

/-!
# Fractions from binary numbers

A binary number with a fractional part is below `2 ^ 52` (`Binary64.abs_lt_of_not_isInt`), so its
integer part is a word and the search for the nearest convergent generates at least one. The parts
of the convergent that it ends with are coprime already, and moving the sign of the number to the
numerator cannot fail, so they become the parts of the result (`Fraction.exists_isFound`). Only an
integer can be out of range.
-/

namespace ExactLinAlg

theorem ratAbs_eq_abs (q : ℚ) : q.abs = |q| := by
  rcases le_total 0 q with h | h
  · rw [Rat.abs_of_nonneg h, abs_of_nonneg h]
  · rw [Rat.abs_of_nonpos h, abs_of_nonpos h]

namespace Word

theorem toInt_max (a b : Int64) : (max a b).toInt = max a.toInt b.toInt := by
  show (if a ≤ b then b else a).toInt = _
  split
  · next h => exact (max_eq_right (Int64.le_iff_toInt_le.1 h)).symm
  · next h => exact (max_eq_left (not_le.1 (mt Int64.le_iff_toInt_le.2 h)).le).symm

theorem one_le_max (a : Int64) : 1 ≤ max a 1 := by
  rw [Int64.le_iff_toInt_le, toInt_max]
  exact le_max_right _ _

theorem max_one {a : Int64} (h : 1 ≤ a) : max a 1 = a := by
  rw [← Int64.toInt_inj, toInt_max]
  exact max_eq_left (Int64.le_iff_toInt_le.1 h)

end Word

/-! ## Numbers with a fractional part -/

namespace Binary64

variable {bits : UInt64} {q : ℚ}

/-- A finite number is a multiple of a power of two by at most 53 bits. -/
theorem exists_abs_eq_of_ofBits (h : ofBits bits = .finite q) :
    ∃ (m : ℕ) (e : ℤ), m < 2 ^ 53 ∧ q.abs = m * 2 ^ e := by
  have hfraction : (bits &&& 0xfffffffffffff).toNat < 2 ^ 52 := by
    rw [UInt64.toNat_and]
    exact Nat.lt_of_le_of_lt Nat.and_le_right (by decide)
  unfold ofBits at h
  generalize (bits &&& 0xfffffffffffff).toNat = fraction at h hfraction
  generalize ((bits >>> 52) &&& 0x7ff).toNat = exponent at h
  dsimp only at h
  split at h
  · split at h <;> cases h
  · have hmagnitude : ∃ (m : ℕ) (e : ℤ), m < 2 ^ 53 ∧
        (if exponent = 0 then (fraction : ℚ) * 2 ^ minExponent
          else (fraction + 0x10000000000000 : ℕ) * 2 ^ (minExponent + exponent - 1)) =
        m * 2 ^ e := by
      split
      · exact ⟨fraction, _, by omega, rfl⟩
      · exact ⟨fraction + 0x10000000000000, _, by omega, rfl⟩
    obtain ⟨m, e, hm, hme⟩ := hmagnitude
    have hnonneg : 0 ≤ (m : ℚ) * 2 ^ e := mul_nonneg (Nat.cast_nonneg m) (two_zpow_pos e).le
    rw [hme] at h
    injection h with h
    refine ⟨m, e, hm, ?_⟩
    rw [← h]
    split
    · rw [Rat.abs_neg, Rat.abs_of_nonneg hnonneg]
    · exact Rat.abs_of_nonneg hnonneg

/-- From `2 ^ 52` on, the spacing of the finite numbers is at least one. -/
theorem abs_lt_of_not_isInt (h : ofBits bits = .finite q) (hq : ¬ q.isInt) : q.abs < 2 ^ 52 := by
  obtain ⟨m, e, hm, habs⟩ := exists_abs_eq_of_ofBits h
  have hneg : e < 0 := by
    by_contra he
    obtain ⟨n, rfl⟩ := Int.eq_ofNat_of_zero_le (not_lt.1 he)
    have hint : |q| = (m * 2 ^ n : ℤ) := by
      rw [← ratAbs_eq_abs, habs, zpow_natCast]
      push_cast
      rfl
    apply hq
    rcases eq_or_eq_neg_of_abs_eq hint with rfl | rfl
    · rfl
    · rw [← Int.cast_neg]
      rfl
  have hhalf : (2 : ℚ) ^ e ≤ 2 ^ (-1 : ℤ) := zpow_le_zpow_right₀ one_le_two (by omega)
  calc q.abs = m * 2 ^ e := habs
    _ ≤ m * 2 ^ (-1 : ℤ) := mul_le_mul_of_nonneg_left hhalf (Nat.cast_nonneg m)
    _ < 2 ^ 53 * 2 ^ (-1 : ℤ) := by
      refine mul_lt_mul_of_pos_right ?_ (by norm_num)
      exact_mod_cast hm
    _ = 2 ^ 52 := by norm_num

theorem inRange_floor_of_not_isInt (h : ofBits bits = .finite q) (hq : ¬ q.isInt) :
    Word.InRange q.abs.floor := by
  have hnonneg : 0 ≤ q.abs.floor := Rat.le_floor_iff.2 (by exact_mod_cast Rat.abs_nonneg)
  have hlt : q.abs.floor < 2 ^ 52 :=
    Rat.floor_lt_iff.2 (by exact_mod_cast abs_lt_of_not_isInt h hq)
  rw [Word.inRange_iff]
  omega

end Binary64

/-! ## What a search ends with -/

namespace Search

open Convergent

variable {bound : Int64} {x rest : ℚ} {s t : Search} {c : Convergent} {cs : List Convergent}

/-- Every convergent is generated right after another one. -/
theorem Run.exists_precedes (h : Run bound x s rest cs t) (hs : Underway s rest) (hc : c ∈ cs) :
    ∃ b, Precedes bound b c := by
  obtain ⟨i, hi, rfl⟩ := List.mem_iff_getElem.1 hc
  exact ⟨_, List.isChain_iff_getElem.1 (h.isChain hs) i (Nat.succ_lt_succ hi)⟩

/-- The integer part of a number is generated if it is a word. -/
theorem Run.ne_nil (h : Run bound x start x cs t) (hbound : 1 ≤ bound)
    (hx : Word.InRange x.floor) : cs ≠ [] := by
  cases hterm : Word.ofInt x.floor with
  | ok term =>
    have hnext := next?_start hterm hbound
    rintro rfl
    cases h with
    | stop hnone => cases hnone.symm.trans hnext
  | error e => exact absurd hx (Word.ofInt_eq_error_iff.1 hterm).1

end Search

namespace Fraction

open Convergent

/-- A search for the convergent nearest to `|x|` generates `cs` and ends with the first of the
nearest ones among them. Its parts are coprime, and once the numerator has the sign of `x`, they are
read as `r` and are the parts of `r`. -/
structure IsFound (bound : Int64) (x : ℚ) (cs : List Convergent) (t : Search) (r : Fraction) :
    Prop where
  run : Search.Run bound x.abs .start x.abs cs t
  best : t.best ∈ cs.argmin (distance x.abs)
  coprime : t.best.num.toInt.natAbs.Coprime t.best.den.toInt.natAbs
  made : make (if x < 0 then -t.best.num else t.best.num) t.best.den = .ok r
  num : r.num = if x < 0 then -t.best.num else t.best.num
  den : r.den = t.best.den

variable {bound : Int64} {x : ℚ} {cs : List Convergent} {t : Search} {r : Fraction}

theorem exists_isFound (hbound : 1 ≤ bound) (hx : Word.InRange x.abs.floor) :
    ∃ r, approximate bound x = .ok r ∧ ∃ cs t, IsFound bound x cs t r := by
  obtain ⟨t, hrun⟩ := Search.run_upTo x.abs hbound
  have hbest := hrun.best_mem_argmin (hrun.ne_nil hbound hx)
  obtain ⟨b, hb⟩ :=
    hrun.exists_precedes (Search.underway_start Rat.abs_nonneg) (List.argmin_mem hbest)
  have hcoprime := hb.adjacent.coprime
  let a : Fraction := ⟨t.best.num, t.best.den, hb.den_pos, hcoprime, hb.num_ne_min⟩
  have happroximate :
      approximate bound x = make (if x < 0 then -t.best.num else t.best.num) t.best.den := by
    rw [hrun.best_eq_nearest hbound]
    rfl
  by_cases hneg : x < 0
  · have hmade : make (if x < 0 then -t.best.num else t.best.num) t.best.den = .ok (-a) := by
      rw [if_pos hneg]
      exact make_parts (-a)
    exact ⟨-a, happroximate.trans hmade, _, t, hrun, hbest, hcoprime, hmade,
      (if_pos hneg).symm, rfl⟩
  · have hmade : make (if x < 0 then -t.best.num else t.best.num) t.best.den = .ok a := by
      rw [if_neg hneg]
      exact make_parts a
    exact ⟨a, happroximate.trans hmade, _, t, hrun, hbest, hcoprime, hmade,
      (if_neg hneg).symm, rfl⟩

namespace IsFound

theorem exists_precedes (h : IsFound bound x cs t r) : ∃ b, Precedes bound b t.best :=
  h.run.exists_precedes (Search.underway_start Rat.abs_nonneg) (List.argmin_mem h.best)

theorem den_le (h : IsFound bound x cs t r) : r.den.toInt ≤ bound.toInt := by
  obtain ⟨b, hb⟩ := h.exists_precedes
  rw [h.den]
  exact Int64.le_iff_toInt_le.1 hb.den_le

theorem toInt_num (h : IsFound bound x cs t r) :
    r.num.toInt = if x < 0 then -t.best.num.toInt else t.best.num.toInt := by
  obtain ⟨b, hb⟩ := h.exists_precedes
  rw [h.num, apply_ite Int64.toInt, Word.toInt_neg_of_ne_min hb.num_ne_min]

/-- The convergent has the absolute value of the result. -/
theorem num_abs (h : IsFound bound x cs t r) : r.abs.num = t.best.num := by
  obtain ⟨b, hb⟩ := h.exists_precedes
  have hnonneg := hb.num_nonneg
  rw [← Int64.toInt_inj, toInt_num_abs, h.toInt_num]
  split <;> omega

theorem signum (h : IsFound bound x cs t r) (hx : x ≠ 0) :
    r.signum = 0 ∨ r.signum = x.num.sign := by
  obtain ⟨b, hb⟩ := h.exists_precedes
  rw [Fraction.signum, h.toInt_num]
  rcases hb.num_nonneg.eq_or_lt with hzero | hpos
  · left
    rw [← hzero]
    split <;> rfl
  · right
    split
    · next hneg =>
      rw [Int.sign_neg, Int.sign_eq_one_of_pos hpos,
        Int.sign_eq_neg_one_of_neg (Rat.num_neg.2 hneg)]
    · next hneg =>
      have hxpos : 0 < x := (not_lt.1 hneg).lt_of_ne' hx
      rw [Int.sign_eq_one_of_pos hpos, Int.sign_eq_one_of_pos (Rat.num_pos.2 hxpos)]

/-- The cross products differ by one in every round. -/
theorem isChain (h : IsFound bound x cs t r) :
    (Search.start.prev :: Search.start.last :: cs).IsChain Adjacent := by
  have hchain := h.run.isChain (Search.underway_start Rat.abs_nonneg)
  exact (hchain.imp fun _ _ hcd => hcd.adjacent).cons_cons (by decide)

theorem fib_le (h : IsFound bound x cs t r) (hbound : 1 ≤ bound) :
    (cs.length.fib : ℤ) ≤ bound.toInt := by
  have hstart : Search.start.last.den ≤ bound := Int64.le_trans (by decide) hbound
  have hfib : ((0 + cs.length).fib : ℤ) ≤ bound.toInt :=
    h.run.fib_le (Search.underway_start Rat.abs_nonneg) hstart (by decide) (by decide)
  rwa [Nat.zero_add] at hfib

end IsFound

/-! ## The conversion -/

variable {q : ℚ}

theorem ofBinary64_of_isInt (hq : q.isInt) (bound : Int64) :
    ofBinary64 (.finite q) bound = (do ofInt (← Word.ofInt q.num)) :=
  if_pos hq

theorem ofBinary64_of_not_isInt (hq : ¬ q.isInt) (bound : Int64) :
    ofBinary64 (.finite q) bound = approximate (max bound 1) q :=
  if_neg hq

/-- An integer overflows where its absolute value is not that of a fraction. -/
theorem overflowsIff_of_isInt (hq : q.isInt) (bound : Int64) :
    OverflowsIff (2 ^ 63 ≤ q.abs) (ofBinary64 (.finite q) bound) := by
  have hvalue : q.abs = (|q.num| : ℤ) := by
    rw [ratAbs_eq_abs, Int.cast_abs, ← Rat.eq_num_of_isInt hq]
  have hiff : 2 ^ 63 ≤ q.abs ↔ ¬ Word.InRange q.num ∨ q.num = -2 ^ 63 := by
    have hcast : (2 : ℚ) ^ 63 ≤ (|q.num| : ℤ) ↔ 2 ^ 63 ≤ |q.num| := by
      exact_mod_cast Iff.rfl
    rw [hvalue, hcast, le_abs, Word.inRange_iff]
    omega
  rw [ofBinary64_of_isInt hq]
  refine ((Word.overflowsIff_ofInt q.num).bind fun w hw => ?_).congr hiff.symm
  apply (overflowsIff_make (by decide)).congr
  rw [Word.ofInt_eq_ok_iff.1 hw, Int64.toInt_one]
  simp

theorem toRat_of_isInt (hq : q.isInt) (h : ofBinary64 (.finite q) bound = .ok r) :
    r.toRat = q := by
  rw [ofBinary64_of_isInt hq] at h
  obtain ⟨w, hw, h⟩ := bind_eq_ok_iff.1 h
  rw [(toRat_of_make h).2, Word.ofInt_eq_ok_iff.1 hw, Int64.toInt_one, Int.cast_one, div_one]
  exact (Rat.eq_num_of_isInt hq).symm

theorem exists_of_not_isInt {bits : UInt64} (hbits : Binary64.ofBits bits = .finite q)
    (hq : ¬ q.isInt) (bound : Int64) :
    ∃ r, ofBinary64 (.finite q) bound = .ok r ∧ ∃ cs t, IsFound (max bound 1) q cs t r := by
  rw [ofBinary64_of_not_isInt hq]
  exact exists_isFound (Word.one_le_max bound) (Binary64.inRange_floor_of_not_isInt hbits hq)

/-- Only a finite number of absolute value `2 ^ 63` or more overflows. -/
theorem overflowsIff_ofBinary64 {bits : UInt64} (hbits : Binary64.ofBits bits = .finite q)
    (bound : Int64) : OverflowsIff (2 ^ 63 ≤ q.abs) (ofBinary64 (.finite q) bound) := by
  by_cases hq : q.isInt
  · exact overflowsIff_of_isInt hq bound
  · obtain ⟨r, hr, -⟩ := exists_of_not_isInt hbits hq bound
    have hlt := Binary64.abs_lt_of_not_isInt hbits hq
    rw [hr]
    refine .of_ok (not_le.2 (hlt.trans_le ?_))
    norm_num

/-- **Fractions from binary numbers.** The conversion fails for what is not a number, for the
infinities, and as an overflow exactly for the numbers of absolute value `2 ^ 63` or more. Any other
number is converted, an integer to the fraction with its value. For a number with a fractional part
the denominator of the result is at least one and keeps to the bound, or to one if the bound is
less, and a result other than zero has the sign of the number. This result is what a search ends
with, after a number of rounds whose Fibonacci number is at most the bound. The cross products of
two successive convergents differ by one, and the parts of the nearest one are the parts of the
result, so reading them does not fail and leaves nothing to be reduced. -/
theorem ofBinary64_exact (bits : UInt64) (bound : Int64) :
    (ofBinary64 (Binary64.ofBits bits) bound = .error .notANumber ↔
      Binary64.ofBits bits = .nan) ∧
    (ofBinary64 (Binary64.ofBits bits) bound = .error .infinite ↔
      ∃ negative, Binary64.ofBits bits = .infinity negative) ∧
    (ofBinary64 (Binary64.ofBits bits) bound = .error .overflow ↔
      ∃ q, Binary64.ofBits bits = .finite q ∧ 2 ^ 63 ≤ q.abs) ∧
    ∀ q, Binary64.ofBits bits = .finite q → q.abs < 2 ^ 63 →
      ∃ r, ofBinary64 (Binary64.ofBits bits) bound = .ok r ∧
      Canonical r.num r.den ∧
      (q.isInt → r.toRat = q) ∧
      (¬ q.isInt → 1 ≤ r.den.toInt ∧ r.den.toInt ≤ max bound.toInt 1 ∧
        (r.signum = 0 ∨ r.signum = q.num.sign) ∧
        ∃ cs t, IsFound (max bound 1) q cs t r ∧
          (Search.start.prev :: Search.start.last :: cs).IsChain Adjacent ∧
          (cs.length.fib : ℤ) ≤ max bound.toInt 1) := by
  cases hx : Binary64.ofBits bits with
  | nan =>
    have hrun : ofBinary64 .nan bound = .error .notANumber := rfl
    rw [hrun]
    exact ⟨iff_of_true rfl rfl, iff_of_false nofun nofun, iff_of_false nofun nofun, nofun⟩
  | infinity negative =>
    have hrun : ofBinary64 (.infinity negative) bound = .error .infinite := rfl
    rw [hrun]
    exact ⟨iff_of_false nofun nofun, iff_of_true rfl ⟨negative, rfl⟩, iff_of_false nofun nofun,
      nofun⟩
  | finite q =>
    have hover := overflowsIff_ofBinary64 hx bound
    refine ⟨iff_of_false (hover.ne_error nofun) nofun, iff_of_false (hover.ne_error nofun) nofun,
      hover.1.trans ⟨fun h => ⟨q, rfl, h⟩, ?_⟩, ?_⟩
    · rintro ⟨_, ⟨⟩, h⟩
      exact h
    · rintro _ ⟨⟩ hlt
      by_cases hq : q.isInt
      · obtain ⟨r, hr⟩ := hover.2.2 (not_le.2 hlt)
        exact ⟨r, hr, r.canonical, fun _ => toRat_of_isInt hq hr, absurd hq⟩
      · obtain ⟨r, hr, cs, t, hfound⟩ := exists_of_not_isInt hx hq bound
        have hmax : (max bound 1).toInt = max bound.toInt 1 := Word.toInt_max bound 1
        have hq0 : q ≠ 0 := fun h => hq (h ▸ rfl)
        refine ⟨r, hr, r.canonical, fun h => absurd h hq, fun _ => ⟨r.den_pos, ?_,
          hfound.signum hq0, cs, t, hfound, hfound.isChain, ?_⟩⟩
        · exact hmax ▸ hfound.den_le
        · exact hmax ▸ hfound.fib_le (Word.one_le_max bound)

/-- A number next to `-0.3` under a bound, and `-3` under a bound below one; what is not a number,
an infinity and `2 ^ 63`. -/
theorem ofBinary64_exact_of_bits :
    let x : ℚ := -5404319552844595 / 2 ^ 54
    let a : Fraction := ⟨-2, 7, by decide, by decide, by decide⟩
    let b : Fraction := ⟨-3, 1, by decide, by decide, by decide⟩
    (Binary64.ofBits 0xbfd3333333333333 = .finite x ∧ x.abs < 2 ^ 63 ∧ ¬ x.isInt ∧
      ofBinary64 (Binary64.ofBits 0xbfd3333333333333) 9 = .ok a ∧ Canonical a.num a.den ∧
      1 ≤ a.den.toInt ∧ a.den.toInt ≤ max (9 : Int64).toInt 1 ∧
      (a.signum = 0 ∨ a.signum = x.num.sign) ∧
      ∃ cs t, IsFound (max 9 1) x cs t a ∧
        (Search.start.prev :: Search.start.last :: cs).IsChain Adjacent ∧
        (cs.length.fib : ℤ) ≤ max (9 : Int64).toInt 1) ∧
    (Binary64.ofBits 0xc008000000000000 = .finite (-3) ∧ (-3 : ℚ).abs < 2 ^ 63 ∧
      (-3 : ℚ).isInt ∧ ofBinary64 (Binary64.ofBits 0xc008000000000000) (-1) = .ok b ∧
      b.toRat = -3) ∧
    ofBinary64 (Binary64.ofBits 0x7ff8000000000000) 9 = .error .notANumber ∧
    ofBinary64 (Binary64.ofBits 0xfff0000000000000) 9 = .error .infinite ∧
    ofBinary64 (Binary64.ofBits 0x43e0000000000000) 9 = .error .overflow := by
  intro x a b
  have hx : Binary64.ofBits 0xbfd3333333333333 = .finite x := by
    decide +kernel
  have hxlt : x.abs < 2 ^ 63 := by
    decide +kernel
  have hxint : ¬ x.isInt := by
    decide +kernel
  have ha : ofBinary64 (Binary64.ofBits 0xbfd3333333333333) 9 = .ok a := by
    decide +kernel
  have hthree : Binary64.ofBits 0xc008000000000000 = .finite (-3) := by
    decide +kernel
  have hthreelt : (-3 : ℚ).abs < 2 ^ 63 := by
    decide +kernel
  have hthreeint : (-3 : ℚ).isInt := by
    decide +kernel
  have hb : ofBinary64 (Binary64.ofBits 0xc008000000000000) (-1) = .ok b := by
    decide +kernel
  obtain ⟨-, -, -, hfraction⟩ := ofBinary64_exact 0xbfd3333333333333 9
  obtain ⟨r, hr, hcanonical, -, hfound⟩ := hfraction x hx hxlt
  cases Except.ok.inj (hr.symm.trans ha)
  obtain ⟨hpos, hbound, hsign, hrun⟩ := hfound hxint
  obtain ⟨-, -, -, hinteger⟩ := ofBinary64_exact 0xc008000000000000 (-1)
  obtain ⟨r', hr', -, hvalue, -⟩ := hinteger (-3) hthree hthreelt
  cases Except.ok.inj (hr'.symm.trans hb)
  obtain ⟨hnan, -⟩ := ofBinary64_exact 0x7ff8000000000000 9
  obtain ⟨-, hinfinite, -⟩ := ofBinary64_exact 0xfff0000000000000 9
  obtain ⟨-, -, hoverflow, -⟩ := ofBinary64_exact 0x43e0000000000000 9
  refine ⟨⟨hx, hxlt, hxint, ha, hcanonical, hpos, hbound, hsign, hrun⟩,
    ⟨hthree, hthreelt, hthreeint, hb, hvalue hthreeint⟩, hnan.2 (by decide +kernel),
    hinfinite.2 ⟨true, by decide +kernel⟩, hoverflow.2 ⟨2 ^ 63, by decide +kernel, ?_⟩⟩
  decide +kernel

end Fraction

end ExactLinAlg
