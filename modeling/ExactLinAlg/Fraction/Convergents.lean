import ExactLinAlg.Binary64
import ExactLinAlg.Fraction.Arithmetic

/-!
# Convergents of a binary number

The continued fraction of a positive number `x` begins with the integer part of `x` and goes on
with the continued fraction of the reciprocal of what is left. Cutting it off after some term
gives a convergent of `x`. Reciprocals are rounded to binary numbers here, so the expansion is
that of a number near `x`; it ends at the first convergent that does not fit into words or whose
denominator exceeds a given bound.

The expansion is finite because every term but the first is at least one, so that the
denominators grow (`den_add_den_le_of_next`).
-/

namespace ExactLinAlg

/-- A quotient `num / den` of words, a convergent of a continued fraction. -/
structure Convergent where
  num : Int64
  den : Int64
deriving DecidableEq

namespace Convergent

/-- The convergent of a continued fraction whose next term is `term` after two convergents
`prev` and `last`, if it fits into words. -/
def append (prev last : Convergent) (term : Int64) : Except Error Convergent := do
  let num ← Word.add prev.num (← Word.mul term last.num)
  let den ← Word.add prev.den (← Word.mul term last.den)
  return ⟨num, den⟩

/-- The convergent after `prev` and `last` where `rest` is still to be expanded. -/
def next (prev last : Convergent) (rest : Rat) : Except Error Convergent := do
  append prev last (← Word.ofInt rest.floor)

/-- What is left of a number after its integer part. -/
def fract (x : Rat) : Rat := x - x.floor

/-- The reciprocal of a number, rounded. -/
def reciprocal (x : Rat) : Rat := Binary64.round (1 / x)

theorem one_le_reciprocal_fract {x : Rat} (h : fract x ≠ 0) : 1 ≤ reciprocal (fract x) := by
  have hfloor := Rat.floor_le x
  have hlt := Rat.lt_floor_add_one x
  rw [Rat.intCast_add, Rat.intCast_one] at hlt
  unfold fract at h ⊢
  have hpos : 0 < x - x.floor := by grind
  refine Binary64.one_le_round ?_
  refine Rat.le_of_mul_le_mul_right (c := x - x.floor) ?_ hpos
  rw [Rat.div_mul_cancel (Rat.ne_of_gt hpos)]
  grind

/-- Where it fits, the new convergent satisfies the recurrence in the integers. -/
theorem toInt_append {prev last c : Convergent} {term : Int64} (h : append prev last term = .ok c) :
    c.num.toInt = prev.num.toInt + term.toInt * last.num.toInt ∧
      c.den.toInt = prev.den.toInt + term.toInt * last.den.toInt := by
  obtain ⟨n', hn', h⟩ := bind_eq_ok_iff.1 h
  obtain ⟨n, hn, h⟩ := bind_eq_ok_iff.1 h
  obtain ⟨d', hd', h⟩ := bind_eq_ok_iff.1 h
  obtain ⟨d, hd, h⟩ := bind_eq_ok_iff.1 h
  cases h
  rw [Word.add_eq_ok_iff] at hn hd
  rw [Word.mul_eq_ok_iff] at hn' hd'
  exact ⟨hn' ▸ hn, hd' ▸ hd⟩

/-- A term of at least one makes the denominators grow. -/
theorem den_add_den_le_of_next {prev last c : Convergent} {rest : Rat} (hrest : 1 ≤ rest)
    (hlast : 0 < last.den.toInt) (h : next prev last rest = .ok c) :
    prev.den.toInt + last.den.toInt ≤ c.den.toInt := by
  obtain ⟨term, hterm, h⟩ := bind_eq_ok_iff.1 h
  have hfloor : 1 ≤ term.toInt := by
    rw [Word.ofInt_eq_ok_iff.1 hterm, Rat.le_floor_iff]
    exact hrest
  have hmul := Int.mul_le_mul_of_nonneg_right hfloor (Int.le_of_lt hlast)
  have hden := (toInt_append h).2
  omega

/-- The convergents that follow `prev` and `last` where `rest` is still to be expanded, as far
as their denominators are at most `bound`. -/
def after (bound : Int64) (prev last : Convergent) (rest : Rat) (hrest : 1 ≤ rest)
    (hprev : 0 ≤ prev.den.toInt) (hlast : 0 < last.den.toInt) : List Convergent :=
  match h : next prev last rest with
  | .error _ => []
  | .ok c =>
    if hbound : c.den ≤ bound then
      c ::
        if hf : fract rest = 0 then
          []
        else
          after bound last c (reciprocal (fract rest)) (one_le_reciprocal_fract hf)
            (Int.le_of_lt hlast)
            (by have := den_add_den_le_of_next hrest hlast h; omega)
    else
      []
termination_by (2 * bound.toInt - (prev.den.toInt + last.den.toInt)).toNat
decreasing_by
  have hden := den_add_den_le_of_next hrest hlast h
  have hle := Int64.le_iff_toInt_le.1 hbound
  omega

/-- The convergents of a positive number `x` whose denominators are at most `bound`, for a
`bound` of at least one. The first of them is the integer part of `x`. -/
def upTo (bound : Int64) (x : Rat) : List Convergent :=
  match Word.ofInt x.floor with
  | .error _ => []
  | .ok term =>
    ⟨term, 1⟩ ::
      if hf : fract x = 0 then
        []
      else
        after bound ⟨1, 0⟩ ⟨term, 1⟩ (reciprocal (fract x)) (one_le_reciprocal_fract hf)
          (Int.le_of_eq Int64.toInt_zero.symm) Word.one_pos

/-- The distance between a convergent and a number `x`, rounded. -/
def distance (x : Rat) (c : Convergent) : Rat :=
  (Binary64.round (Binary64.quotient c.num.toInt c.den.toInt - x)).abs

/-- The nearer of two convergents to `x`, the first if they are equally near. -/
def nearer (x : Rat) (c d : Convergent) : Convergent :=
  if distance x d < distance x c then d else c

/-- The convergent nearest to `x` among those with a denominator of at most `bound`, the first
of several equally near ones. -/
def nearest (bound : Int64) (x : Rat) : Convergent :=
  match upTo bound x with
  | [] => ⟨0, 1⟩
  | c :: rest => rest.foldl (nearer x) c

end Convergent

end ExactLinAlg
