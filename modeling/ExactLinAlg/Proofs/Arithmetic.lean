import ExactLinAlg.Fraction.Value
import ExactLinAlg.Proofs.Ends

/-!
# Arithmetic is exact or overflows

An operation on fractions whose divisor, if it has one, is not zero gives the exact result of the
operation on the rational numbers, or fails with an overflow.
-/

namespace ExactLinAlg

/-- The only failure of arithmetic without a division by zero. -/
abbrev Error.IsOverflow (e : Error) : Prop := e = .overflow

namespace Word

theorem ends_ofInt (n : Int) : Ends Error.IsOverflow (fun w => w.toInt = n) (ofInt n) := by
  cases h : ofInt n with
  | ok w => exact ofInt_eq_ok_iff.1 h
  | error e => exact (ofInt_eq_error_iff.1 h).2

theorem ends_mul (a b : Int64) :
    Ends Error.IsOverflow (fun w => w.toInt = a.toInt * b.toInt) (mul a b) :=
  ends_ofInt _

theorem ends_add (a b : Int64) :
    Ends Error.IsOverflow (fun w => w.toInt = a.toInt + b.toInt) (add a b) :=
  ends_ofInt _

theorem mul_one (a : Int64) : mul a 1 = .ok a :=
  mul_eq_ok_iff.2 (Int.mul_one a.toInt).symm

theorem mul_zero (a : Int64) : mul a 0 = .ok 0 :=
  mul_eq_ok_iff.2 (Int.mul_zero a.toInt).symm

end Word

namespace Fraction

theorem ends_lowestTerms (n d : Int64) (hd : 0 < d.toInt) :
    Ends Error.IsOverflow (fun _ => True) (lowestTerms n d hd) := by
  unfold lowestTerms
  split
  · rfl
  · trivial

theorem ends_make {n d : Int64} (hd : d.toInt ≠ 0) :
    Ends Error.IsOverflow (fun a => a.toRat = (n.toInt : Rat) / d.toInt) (make n d) := by
  refine Ends.strengthen (P := fun _ => True) ?_ fun a ha _ => (toRat_of_make ha).2
  unfold make
  split
  · next hz => exact absurd (congrArg Int64.toInt hz) hd
  · split
    · exact ends_lowestTerms ..
    · split
      · rfl
      · exact ends_lowestTerms ..

/-- A product of denominators can be a denominator. -/
theorem den_mul_ne_zero {a b : Fraction} {w : Int64} (h : w.toInt = a.den.toInt * b.den.toInt) :
    w.toInt ≠ 0 := by
  rw [h]
  exact Int.ne_of_gt (Int.mul_pos a.den_pos b.den_pos)

theorem num_toInt_ne_zero {a : Fraction} (h : a.toRat ≠ 0) : a.num.toInt ≠ 0 := by
  intro h0
  apply h
  rw [toRat_eq_div, h0, Rat.div_def]
  exact Rat.zero_mul _

theorem ends_add (a b : Fraction) :
    Ends Error.IsOverflow (fun c => c.toRat = a.toRat + b.toRat) (add a b) := by
  refine Ends.strengthen (P := fun _ => True) ?_ fun c hc _ => toRat_of_add hc
  refine (Word.ends_mul _ _).bind fun left _ => ?_
  refine (Word.ends_mul _ _).bind fun right _ => ?_
  refine (Word.ends_add _ _).bind fun num _ => ?_
  refine (Word.ends_mul _ _).bind fun den hden => ?_
  exact (ends_make (den_mul_ne_zero hden)).imp fun _ _ => trivial

theorem ends_sub (a b : Fraction) :
    Ends Error.IsOverflow (fun c => c.toRat = a.toRat - b.toRat) (sub a b) :=
  (ends_add a (-b)).strengthen fun _ hc _ => toRat_of_sub hc

theorem ends_mul (a b : Fraction) :
    Ends Error.IsOverflow (fun c => c.toRat = a.toRat * b.toRat) (mul a b) := by
  refine Ends.strengthen (P := fun _ => True) ?_ fun c hc _ => toRat_of_mul hc
  refine (Word.ends_mul _ _).bind fun num _ => ?_
  refine (Word.ends_mul _ _).bind fun den hden => ?_
  exact (ends_make (den_mul_ne_zero hden)).imp fun _ _ => trivial

theorem ends_recip {a : Fraction} (ha : a.toRat ≠ 0) :
    Ends Error.IsOverflow (fun b => b.toRat = a.toRat⁻¹) (recip a) :=
  (ends_make (num_toInt_ne_zero ha)).strengthen fun _ hb _ => toRat_of_recip hb

theorem ends_div {a b : Fraction} (hb : b.toRat ≠ 0) :
    Ends Error.IsOverflow (fun c => c.toRat = a.toRat / b.toRat) (div a b) := by
  refine Ends.strengthen (P := fun _ => True) ?_ fun c hc _ => (toRat_of_div hc).2
  unfold div
  rw [if_neg fun h => hb (toRat_eq_zero_iff.2 h)]
  refine (Word.ends_mul _ _).bind fun num _ => ?_
  refine (Word.ends_mul _ _).bind fun den hden => ?_
  refine (ends_make ?_).imp fun _ _ => trivial
  rw [hden]
  exact Int.mul_ne_zero (Int.ne_of_gt a.den_pos) (num_toInt_ne_zero hb)

theorem ends_compare (a b : Fraction) :
    Ends Error.IsOverflow (fun o => (o = .lt ↔ a.toRat < b.toRat) ∧ (o = .eq ↔ a.toRat = b.toRat) ∧
      (o = .gt ↔ b.toRat < a.toRat)) (compare a b) := by
  refine Ends.strengthen (P := fun _ => True) ?_ fun o ho _ => order_of_compare ho
  refine (Word.ends_mul _ _).bind fun left _ => ?_
  refine (Word.ends_mul _ _).bind fun right _ => ?_
  trivial

/-! ## Operations that always succeed -/

theorem exists_lowestTerms {n d : Int64} (hd : 0 < d.toInt) (hn : n ≠ Int64.minValue) :
    ∃ a, lowestTerms n d hd = .ok a := by
  rw [lowestTerms, dif_neg (div_commonDivisor_ne_min hd hn)]
  exact ⟨_, rfl⟩

theorem exists_make {n d : Int64} (hz : d.toInt ≠ 0) (hn : n ≠ Int64.minValue)
    (hd : d ≠ Int64.minValue) : ∃ a, make n d = .ok a := by
  have hd0 : d ≠ 0 := fun h => hz (congrArg Int64.toInt h)
  unfold make
  rw [dif_neg hd0]
  split
  · exact exists_lowestTerms _ hn
  · rw [dif_neg (not_or.2 ⟨hn, hd⟩)]
    apply exists_lowestTerms
    intro hmin
    have hneg := Word.toInt_neg_of_ne_min hn
    have hrange := Word.inRange_iff.1 (Word.inRange_toInt n)
    rw [hmin, Int64.toInt_minValue] at hneg
    omega

/-- A denominator is no least word, so a numerator of its size fits. -/
theorem den_ne_min (a : Fraction) : a.den ≠ Int64.minValue := by
  intro h
  have hpos := a.den_pos
  rw [h, Int64.toInt_minValue] at hpos
  exact absurd hpos (by decide)

theorem exists_recip {a : Fraction} (ha : a.toRat ≠ 0) : ∃ b, recip a = .ok b :=
  exists_make (num_toInt_ne_zero ha) a.den_ne_min a.num_ne_min

theorem neg_num_eq_ok (a : Fraction) : Word.neg a.num = .ok (-a).num :=
  Word.neg_eq_ok_iff.2 (toInt_num_neg a)

/-- A fraction is read from its parts. -/
theorem make_parts (a : Fraction) : make a.num a.den = .ok a := by
  have hden : a.den.toInt ≠ 0 := Int.ne_of_gt a.den_pos
  obtain ⟨b, hb⟩ := exists_make hden a.num_ne_min a.den_ne_min
  have hvalue := (toRat_of_make hb).2
  rw [← toRat_eq_div] at hvalue
  rw [hb, toRat_injective hvalue]

/-- Zero is read over any denominator. -/
theorem make_zero {d : Int64} (hd : d.toInt ≠ 0) (hmin : d ≠ Int64.minValue) :
    make 0 d = .ok 0 := by
  obtain ⟨b, hb⟩ := exists_make (n := 0) hd (num_ne_min 0) hmin
  have hzero : b.toRat = 0 := by
    rw [(toRat_of_make hb).2, Int64.toInt_zero, Rat.intCast_zero, Rat.div_def, Rat.zero_mul]
  exact hb.trans (congrArg Except.ok (toRat_injective (hzero.trans toRat_zero.symm)))

protected theorem add_comm (a b : Fraction) : add a b = add b a := by
  rw [add, add, Word.mul_comm a.den]
  cases hleft : Word.mul a.num b.den with
  | ok left =>
    cases Word.mul b.num a.den with
    | ok right =>
      show (Word.add left right >>= _) = (Word.add right left >>= _)
      rw [Word.add_comm]
    | error e => rfl
  | error e =>
    cases hright : Word.mul b.num a.den with
    | ok right => rfl
    | error e' =>
      rw [(Word.ends_mul _ _).of_error hleft, (Word.ends_mul _ _).of_error hright]

protected theorem mul_comm (a b : Fraction) : mul a b = mul b a := by
  rw [mul, mul, Word.mul_comm a.num, Word.mul_comm a.den]

theorem mul_one (a : Fraction) : mul a 1 = .ok a := by
  rw [mul, num_one, den_one, Word.mul_one, Word.mul_one]
  exact make_parts a

protected theorem one_mul (a : Fraction) : mul 1 a = .ok a := by
  rw [Fraction.mul_comm, mul_one]

protected theorem mul_zero (a : Fraction) : mul a 0 = .ok 0 := by
  rw [mul, num_zero, den_zero, Word.mul_zero, Word.mul_one]
  exact make_zero (Int.ne_of_gt a.den_pos) a.den_ne_min

protected theorem zero_mul (a : Fraction) : mul 0 a = .ok 0 := by
  rw [Fraction.mul_comm, Fraction.mul_zero]

protected theorem add_zero (a : Fraction) : add a 0 = .ok a := by
  have hsum : Word.add a.num 0 = .ok a.num := Word.add_eq_ok_iff.2 (Int.add_zero a.num.toInt).symm
  rw [add, num_zero, den_zero, Word.mul_one, Word.mul_comm, Word.mul_zero, Word.mul_one]
  show (Word.add a.num 0 >>= _) = _
  rw [hsum]
  exact make_parts a

protected theorem zero_add (a : Fraction) : add 0 a = .ok a := by
  rw [Fraction.add_comm, Fraction.add_zero]

theorem recip_one : recip 1 = .ok 1 := make_parts 1

/-- Zero is compared with any fraction. -/
theorem compare_zero (b : Fraction) : compare 0 b = .ok (Ord.compare 0 b.num.toInt) := by
  rw [compare, num_zero, den_zero, Word.mul_comm, Word.mul_zero, Word.mul_one]
  rfl

end Fraction

end ExactLinAlg
