import ExactLinAlg.Proofs.Overflow

/-!
# Which pairs of words are fractions

`Fraction.make` reads every pair of words with a denominator other than zero, except the pairs for
which `Fraction.PairOverflows` holds, and the fraction that it gives is the only one with the value
of the pair. The divisor of the reduction is found without signs, where it can be `2 ^ 63`; a
positive denominator keeps it small enough for a signed word (`Fraction.toInt_commonDivisor_eq`).
-/

namespace ExactLinAlg.Fraction

/-- What keeps the pair of `n` and a denominator `d` from being read: a sign to be moved to the
numerator that `n` or `d` cannot change, or the numerator `-2 ^ 63` with nothing to cancel. -/
def PairOverflows (n d : ℤ) : Prop :=
  d < 0 ∧ (n = -2 ^ 63 ∨ d = -2 ^ 63) ∨ 0 < d ∧ Odd d ∧ n = -2 ^ 63

instance (n d : ℤ) : Decidable (PairOverflows n d) :=
  inferInstanceAs (Decidable (_ ∨ _))

variable {n d : Int64}

/-- The divisor keeps its value as a signed word. -/
theorem toInt_commonDivisor_eq (hd : 0 < d.toInt) :
    (commonDivisor n d).toInt = (Word.gcd (Word.magnitude n) (Word.magnitude d)).toNat := by
  rw [toInt_commonDivisor hd, Word.toNat_gcd, Word.toNat_magnitude, Word.toNat_magnitude]

/-! ## Failures -/

theorem make_eq_divisionByZero_iff : make n d = .error .divisionByZero ↔ d.toInt = 0 := by
  constructor
  · intro h
    by_contra hd
    exact (overflowsIff_make hd).ne_error (by decide) h
  · intro h
    have hd : d = 0 := Int64.toInt.inj h
    rw [make, dif_pos hd]

theorem overflowsIff_make_pair (hd : d.toInt ≠ 0) :
    OverflowsIff (PairOverflows n.toInt d.toInt) (make n d) := by
  apply (overflowsIff_make hd).congr
  unfold PairOverflows
  rcases hd.lt_or_gt with hneg | hpos
  · simp only [hneg, hneg.not_gt, true_or, and_true, true_and, false_and, or_false]
  · have hmin : d.toInt ≠ -2 ^ 63 := by omega
    simp only [hpos, hpos.not_gt, hmin, false_or, or_false, false_and, true_and, and_comm]

theorem make_eq_overflow_iff : make n d = .error .overflow ↔ PairOverflows n.toInt d.toInt := by
  by_cases hd : d.toInt = 0
  · rw [make_eq_divisionByZero_iff.2 hd, hd]
    simp [PairOverflows]
  · exact (overflowsIff_make_pair hd).1

/-- The sign of a negative denominator is moved by two checked negations. -/
theorem make_of_neg (hd : d.toInt < 0) :
    make n d = (do make (← Word.neg n) (← Word.neg d)) := by
  have hd0 : d ≠ 0 := by
    rintro rfl
    exact absurd hd (by decide)
  rw [make, dif_neg hd0, dif_neg hd.not_gt]
  split
  · next h =>
    rcases h with rfl | rfl
    · rfl
    · cases hn : Word.neg n with
      | ok w => rfl
      | error e =>
        rw [(Word.ends_ofInt _).of_error hn]
        rfl
  · next h =>
    have hnum := Word.toInt_neg_of_ne_min (not_or.1 h).1
    have hden := Word.toInt_neg_of_ne_min (not_or.1 h).2
    have hpos : 0 < (-d).toInt := by omega
    have hne : -d ≠ 0 := fun h0 => hpos.ne' (congrArg Int64.toInt h0)
    rw [Word.neg_eq_ok_iff.2 hnum, Word.neg_eq_ok_iff.2 hden]
    show _ = make (-n) (-d)
    rw [make, dif_neg hne, dif_pos hpos]

/-! ## Results -/

/-- A pair is read as the fraction with equal cross products. -/
theorem make_eq_ok_iff {a : Fraction} :
    make n d = .ok a ↔ d.toInt ≠ 0 ∧ ¬ PairOverflows n.toInt d.toInt ∧
      a.num.toInt * d.toInt = n.toInt * a.den.toInt := by
  have hcross : d.toInt ≠ 0 → (a.toRat = (n.toInt : ℚ) / d.toInt ↔
      a.num.toInt * d.toInt = n.toInt * a.den.toInt) := by
    intro hd
    rw [toRat_eq_div, div_eq_div_iff a.den_cast_ne_zero (Int.cast_ne_zero.2 hd)]
    exact_mod_cast Iff.rfl
  constructor
  · intro h
    obtain ⟨hd, hvalue⟩ := toRat_of_make h
    exact ⟨hd, (overflowsIff_make_pair hd).2.1 ⟨a, h⟩, (hcross hd).1 hvalue⟩
  · rintro ⟨hd, hfits, h⟩
    obtain ⟨b, hb⟩ := (overflowsIff_make_pair hd).2.2 hfits
    rw [hb, toRat_injective ((toRat_of_make hb).2.trans ((hcross hd).2 h).symm)]

/-- **Reading a pair of words.** A pair fails as a division by zero if its denominator is zero, and
overflows exactly if a sign cannot be moved or the numerator stays `-2 ^ 63`. Every other pair is
read as a fraction in canonical form with equal cross products, the only one with them. A negative
denominator comes to the same as the two opposites. Euclid's algorithm finds the greatest common
divisor of any two unsigned words, and where it reduces a positive denominator it does not wrap as a
signed word. Each fraction is read from its own parts. -/
theorem make_exact (n d : Int64) :
    (make n d = .error .divisionByZero ↔ d.toInt = 0) ∧
    (make n d = .error .overflow ↔ PairOverflows n.toInt d.toInt) ∧
    (d.toInt ≠ 0 → ¬ PairOverflows n.toInt d.toInt → ∃ a, make n d = .ok a ∧
      Canonical a.num a.den ∧ a.num.toInt * d.toInt = n.toInt * a.den.toInt ∧
      ∀ b : Fraction, b.num.toInt * d.toInt = n.toInt * b.den.toInt → b = a) ∧
    (d.toInt < 0 → make n d = (do make (← Word.neg n) (← Word.neg d))) ∧
    (∀ a b : UInt64, (Word.gcd a b).toNat = Nat.gcd a.toNat b.toNat) ∧
    (∀ p q : Int64, 0 < q.toInt →
      (commonDivisor p q).toInt = (Word.gcd (Word.magnitude p) (Word.magnitude q)).toNat) ∧
    ∀ a : Fraction, make a.num a.den = .ok a := by
  refine ⟨make_eq_divisionByZero_iff, make_eq_overflow_iff, ?_, make_of_neg, Word.toNat_gcd,
    fun _ _ => toInt_commonDivisor_eq, make_parts⟩
  intro hd hfits
  obtain ⟨a, ha⟩ := (overflowsIff_make_pair hd).2.2 hfits
  obtain ⟨-, -, hcross⟩ := make_eq_ok_iff.1 ha
  refine ⟨a, ha, a.canonical, hcross, ?_⟩
  intro b hb
  have hread : make n d = .ok b := make_eq_ok_iff.2 ⟨hd, hfits, hb⟩
  exact Except.ok.inj (hread.symm.trans ha)

/-- The numerator `-2 ^ 63` over an odd, an even and a negative denominator, the denominator
`-2 ^ 63`, and two opposites. -/
theorem make_exact_at_bounds :
    let m := Int64.minValue
    make m 3 = .error .overflow ∧ make m (-2) = .error .overflow ∧ make 0 m = .error .overflow ∧
      (∃ a, make m 6 = .ok a ∧ Canonical a.num a.den ∧
        a.num.toInt * 6 = -2 ^ 63 * a.den.toInt) ∧
      (commonDivisor m 6).toInt = (Word.gcd (Word.magnitude m) (Word.magnitude 6)).toNat ∧
      make 6 (-4) = (do make (← Word.neg 6) (← Word.neg (-4))) := by
  intro m
  obtain ⟨-, hodd, -⟩ := make_exact m 3
  obtain ⟨-, hnegative, -⟩ := make_exact m (-2)
  obtain ⟨-, hleast, -⟩ := make_exact 0 m
  obtain ⟨-, -, heven, -, -, hdivisor, -⟩ := make_exact m 6
  obtain ⟨-, -, -, hsign, -⟩ := make_exact 6 (-4)
  obtain ⟨a, ha, hcanonical, hcross, -⟩ := heven (by decide) (by decide)
  exact ⟨hodd.2 (by decide), hnegative.2 (by decide), hleast.2 (by decide),
    ⟨a, ha, hcanonical, hcross⟩, hdivisor m 6 (by decide), hsign (by decide)⟩

end ExactLinAlg.Fraction
