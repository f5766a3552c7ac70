import ExactLinAlg.Proofs.Arithmetic
import Mathlib

/-!
# When arithmetic overflows

`OverflowsIff C x` says that a computation overflows if `C` holds and gives a result if not, which
is more than `Ends` says: a condition for each step adds up to the exact condition for the whole
(`OverflowsIff.bind`, and `OverflowsIff.foldlM_range'` for a loop). The numerator `-2 ^ 63` passes
every check of a word and is found too small only after the reduction, if nothing cancels. For a sum
this depends on the denominator (`Fraction.overflowsIff_make`). For a product or a quotient nothing
ever cancels there: both factors of `2 ^ 63` are even, so the other parts of the two fractions are
odd (`odd_of_coprime`).
-/

namespace ExactLinAlg

/-- The computation overflows if `C` holds, and gives a result if it does not. -/
def OverflowsIff {α : Type} (C : Prop) (x : Except Error α) : Prop :=
  (x = .error .overflow ↔ C) ∧ ((∃ a, x = .ok a) ↔ ¬ C)

namespace OverflowsIff

variable {α β : Type} {C D : Prop} {x : Except Error α}

theorem of_ok {a : α} (hC : ¬ C) : OverflowsIff C (.ok a) := by
  constructor
  · simpa using hC
  · simpa using hC

theorem of_overflow (hC : C) : OverflowsIff C (.error .overflow : Except Error α) := by
  constructor
  · simpa using hC
  · simpa using hC

theorem congr (h : OverflowsIff C x) (hCD : C ↔ D) : OverflowsIff D x :=
  propext hCD ▸ h

theorem ne_error (h : OverflowsIff C x) {e : Error} (he : e ≠ .overflow) : x ≠ .error e := by
  rintro rfl
  by_cases hC : C
  · cases h.1.2 hC
    exact he rfl
  · obtain ⟨_, ⟨⟩⟩ := h.2.2 hC

/-- A result of the first step tells what the second step depends on. -/
theorem bind {f : α → Except Error β} (h : OverflowsIff C x)
    (hf : ∀ a, x = .ok a → OverflowsIff D (f a)) : OverflowsIff (C ∨ D) (x >>= f) := by
  by_cases hC : C
  · rw [h.1.2 hC]
    exact of_overflow (Or.inl hC)
  · obtain ⟨a, rfl⟩ := h.2.2 hC
    exact (hf a rfl).congr (or_iff_right hC).symm

/-- A second step that gives a result for every result of the first one. -/
theorem bind_of_exists {f : α → Except Error β} (h : OverflowsIff C x)
    (hf : ∀ a, ∃ b, f a = .ok b) : OverflowsIff C (x >>= f) := by
  refine (h.bind (D := False) fun a _ => ?_).congr (or_false C).to_iff
  obtain ⟨b, hb⟩ := hf a
  rw [hb]
  exact of_ok not_false

/-- A loop whose invariant fixes the condition of each step overflows if one of them holds. -/
theorem foldlM_range' {σ : Type} {f : σ → ℕ → Except Error σ} {I : ℕ → σ → Prop} {C : ℕ → Prop}
    {lo hi : ℕ} {s : σ} (hle : lo ≤ hi) (h0 : I lo s)
    (step : ∀ i, lo ≤ i → i < hi → ∀ s, I i s → OverflowsIff (C i) (f s i))
    (keep : ∀ i, lo ≤ i → i < hi → ∀ s, I i s → Ends Error.Any (I (i + 1)) (f s i)) :
    OverflowsIff (∃ i, lo ≤ i ∧ i < hi ∧ C i) ((List.range' lo (hi - lo)).foldlM f s) := by
  obtain ⟨n, rfl⟩ := Nat.exists_eq_add_of_le hle
  clear hle
  rw [Nat.add_sub_cancel_left]
  induction n generalizing lo s with
  | zero => exact of_ok fun ⟨i, hi, hlt, _⟩ => absurd hlt hi.not_gt
  | succ n ih =>
    have hlo : lo < lo + (n + 1) := by omega
    -- The steps after an overflow are not reached, so the invariant is needed for results only.
    have hrest : ∀ t, f s lo = .ok t →
        OverflowsIff (∃ i, lo + 1 ≤ i ∧ i < lo + 1 + n ∧ C i)
          ((List.range' (lo + 1) n).foldlM f t) := by
      intro t ht
      apply ih ((keep lo le_rfl hlo s h0).of_ok ht)
      · exact fun i hi hlt => step i (by omega) (by omega)
      · exact fun i hi hlt => keep i (by omega) (by omega)
    rw [List.range'_succ, List.foldlM_cons]
    apply ((step lo le_rfl hlo s h0).bind hrest).congr
    constructor
    · rintro (h | ⟨i, hi, hlt, h⟩)
      · exact ⟨lo, le_rfl, hlo, h⟩
      · exact ⟨i, by omega, by omega, h⟩
    · rintro ⟨i, hi, hlt, h⟩
      rcases hi.eq_or_lt with rfl | hi
      · exact Or.inl h
      · exact Or.inr ⟨i, hi, by omega, h⟩

end OverflowsIff

/-! ## Words -/

namespace Word

theorem overflowsIff_ofInt (n : ℤ) : OverflowsIff (¬ InRange n) (ofInt n) := by
  unfold ofInt
  split
  · next h => exact .of_ok (not_not.2 h)
  · next h => exact .of_overflow h

theorem overflowsIff_mul (a b : Int64) : OverflowsIff (¬ InRange (a.toInt * b.toInt)) (mul a b) :=
  overflowsIff_ofInt _

theorem overflowsIff_add (a b : Int64) : OverflowsIff (¬ InRange (a.toInt + b.toInt)) (add a b) :=
  overflowsIff_ofInt _

theorem eq_minValue_iff {w : Int64} : w = Int64.minValue ↔ w.toInt = -2 ^ 63 := by
  rw [← Int64.toInt_inj, Int64.toInt_minValue]

end Word

/-- Both of two numbers below `2 ^ 63` with the product `2 ^ 63` are even, so what is coprime to one
of them is odd. -/
theorem odd_of_coprime {x y p : ℕ} (hy : y < 2 ^ 63) (h : x * y = 2 ^ 63) (hxp : x.Coprime p) :
    Odd p := by
  obtain ⟨k, -, rfl⟩ := (Nat.dvd_prime_pow Nat.prime_two).1 (Dvd.intro y h)
  have hk : 0 < k := by
    by_contra hk
    rw [Nat.eq_zero_of_not_pos hk, pow_zero, one_mul] at h
    exact hy.ne h
  exact Nat.coprime_two_left.1 ((Nat.coprime_pow_left_iff hk 2 p).1 hxp)

namespace Fraction

theorem natAbs_num_lt (a : Fraction) : a.num.toInt.natAbs < 2 ^ 63 := by
  have hle := a.num_le
  have hge := a.neg_le_num
  omega

theorem natAbs_den_lt (a : Fraction) : a.den.toInt.natAbs < 2 ^ 63 := by
  have hle := a.den_le
  have hpos := a.den_pos
  omega

/-! ## Reduction -/

/-- Only the least word over an odd denominator is reduced to the least word. -/
theorem div_commonDivisor_eq_min_iff {n d : Int64} (hd : 0 < d.toInt) :
    n / commonDivisor n d = Int64.minValue ↔ n.toInt = -2 ^ 63 ∧ Odd d.toInt := by
  have hgcd : n.toInt = -2 ^ 63 → (n.toInt.natAbs.gcd d.toInt.natAbs = 1 ↔ Odd d.toInt) := by
    intro hn
    rw [hn, ← Int.natAbs_odd, ← Nat.coprime_two_left]
    exact Nat.coprime_pow_left_iff (show 0 < 63 by decide) 2 _
  constructor
  · intro h
    have hn : n.toInt = -2 ^ 63 := by
      by_contra hn
      exact div_commonDivisor_ne_min hd (mt Word.eq_minValue_iff.1 hn) h
    have hquot : n.toInt.natAbs / n.toInt.natAbs.gcd d.toInt.natAbs = n.toInt.natAbs := by
      have hmin := congrArg Int.natAbs (Word.eq_minValue_iff.1 h)
      rwa [toInt_div_commonDivisor hd, Int.natAbs_tdiv, Int.natAbs_natCast, ← hn] at hmin
    exact ⟨hn, (hgcd hn).1 ((Nat.div_eq_self.1 hquot).resolve_left (by omega))⟩
  · rintro ⟨hn, hodd⟩
    rw [Word.eq_minValue_iff, toInt_div_commonDivisor hd, (hgcd hn).2 hodd]
    exact (Int.tdiv_one _).trans hn

theorem overflowsIff_lowestTerms {n d : Int64} (hd : 0 < d.toInt) :
    OverflowsIff (n.toInt = -2 ^ 63 ∧ Odd d.toInt) (lowestTerms n d hd) := by
  unfold lowestTerms
  split
  · next h => exact .of_overflow ((div_commonDivisor_eq_min_iff hd).1 h)
  · next h => exact .of_ok (mt (div_commonDivisor_eq_min_iff hd).2 h)

/-- The sign of a negative denominator is moved before the reduction, which needs both opposites. -/
theorem overflowsIff_make {n d : Int64} (hd : d.toInt ≠ 0) :
    OverflowsIff (n.toInt = -2 ^ 63 ∧ (d.toInt < 0 ∨ Odd d.toInt) ∨ d.toInt = -2 ^ 63)
      (make n d) := by
  have hd0 : d ≠ 0 := fun h => hd (congrArg Int64.toInt h)
  unfold make
  rw [dif_neg hd0]
  split
  · next hpos =>
    apply (overflowsIff_lowestTerms hpos).congr
    constructor
    · rintro ⟨hn, hodd⟩
      exact Or.inl ⟨hn, Or.inr hodd⟩
    · rintro (⟨hn, hneg | hodd⟩ | hmin)
      · omega
      · exact ⟨hn, hodd⟩
      · omega
  · next hpos =>
    have hneg : d.toInt < 0 := by omega
    split
    · next h =>
      rw [Word.eq_minValue_iff, Word.eq_minValue_iff] at h
      exact .of_overflow (h.imp_left fun hn => ⟨hn, Or.inl hneg⟩)
    · next h =>
      have hn := Word.toInt_neg_of_ne_min (not_or.1 h).1
      have hd := Word.toInt_neg_of_ne_min (not_or.1 h).2
      rw [Word.eq_minValue_iff, Word.eq_minValue_iff] at h
      apply (overflowsIff_lowestTerms _).congr
      rw [hn]
      constructor
      · rintro ⟨hmin, -⟩
        have hrange := Word.inRange_iff.1 (Word.inRange_toInt n)
        omega
      · rintro (⟨hmin, -⟩ | hmin)
        · exact absurd (Or.inl hmin) h
        · exact absurd (Or.inr hmin) h

/-! ## Arithmetic -/

/-- A quotient of products is formed from words. Where its numerator cannot be reduced from
`-2 ^ 63`, the condition does not depend on signs. -/
theorem overflowsIff_make_mul {p q r s : Int64} (hne : r.toInt * s.toInt ≠ 0)
    (hodd : p.toInt * q.toInt = -2 ^ 63 → Odd (r.toInt * s.toInt)) :
    OverflowsIff (2 ^ 63 ≤ |p.toInt * q.toInt| ∨ 2 ^ 63 ≤ |r.toInt * s.toInt|)
      (do make (← Word.mul p q) (← Word.mul r s)) := by
  have hrun : OverflowsIff
      (¬ Word.InRange (p.toInt * q.toInt) ∨ ¬ Word.InRange (r.toInt * s.toInt) ∨
        (p.toInt * q.toInt = -2 ^ 63 ∧ (r.toInt * s.toInt < 0 ∨ Odd (r.toInt * s.toInt)) ∨
          r.toInt * s.toInt = -2 ^ 63))
      (do make (← Word.mul p q) (← Word.mul r s)) := by
    apply (Word.overflowsIff_mul p q).bind
    intro num hnum
    apply (Word.overflowsIff_mul r s).bind
    intro den hden
    rw [Word.mul_eq_ok_iff] at hnum hden
    rw [← hnum, ← hden]
    exact overflowsIff_make (hden ▸ hne)
  apply hrun.congr
  rw [Word.inRange_iff, Word.inRange_iff, le_abs', le_abs']
  -- `-2 ^ 63` is a word, but one that is found too small in the end
  by_cases hmin : p.toInt * q.toInt = -2 ^ 63
  · have hlate : r.toInt * s.toInt < 0 ∨ Odd (r.toInt * s.toInt) := Or.inr (hodd hmin)
    exact iff_of_true (Or.inr (Or.inr (Or.inl ⟨hmin, hlate⟩))) (Or.inl (Or.inl hmin.le))
  · simp only [hmin, false_and, false_or]
    omega

/-- The numerator `-2 ^ 63` of a product or a quotient has an odd denominator. -/
theorem odd_den_mul {a : Fraction} {p q : ℤ} (hp : p.natAbs < 2 ^ 63)
    (hpq : p.natAbs.Coprime q.natAbs) (h : a.num.toInt * p = -2 ^ 63) :
    Odd (a.den.toInt * q) := by
  have habs := congrArg Int.natAbs h
  rw [Int.natAbs_mul] at habs
  have hden := odd_of_coprime hp habs a.coprime
  have hq := odd_of_coprime a.natAbs_num_lt (mul_comm p.natAbs _ |>.trans habs) hpq
  exact (Int.natAbs_odd.1 hden).mul (Int.natAbs_odd.1 hq)

theorem overflowsIff_mul (a b : Fraction) :
    OverflowsIff
      (2 ^ 63 ≤ |a.num.toInt * b.num.toInt| ∨ 2 ^ 63 ≤ a.den.toInt * b.den.toInt) (mul a b) := by
  have hpos := Int.mul_pos a.den_pos b.den_pos
  have hrun := overflowsIff_make_mul (p := a.num) (q := b.num) hpos.ne'
    (odd_den_mul b.natAbs_num_lt b.coprime)
  rwa [abs_of_pos hpos] at hrun

theorem overflowsIff_div {a b : Fraction} (hb : b.num.toInt ≠ 0) :
    OverflowsIff
      (2 ^ 63 ≤ |a.num.toInt * b.den.toInt| ∨ 2 ^ 63 ≤ |a.den.toInt * b.num.toInt|)
      (div a b) := by
  have hzero : ¬ b.isZero = true := by
    intro h
    rw [isZero_iff.1 h] at hb
    exact hb rfl
  unfold div
  rw [if_neg hzero]
  exact overflowsIff_make_mul (Int.mul_ne_zero a.den_pos.ne' hb)
    (odd_den_mul b.natAbs_den_lt b.coprime.symm)

/-- What makes the sum of the fractions `p / r` and `q / s` overflow. -/
def SumOverflows (p r q s : ℤ) : Prop :=
  ¬ Word.InRange (p * s) ∨ ¬ Word.InRange (q * r) ∨ ¬ Word.InRange (p * s + q * r) ∨
    ¬ Word.InRange (r * s) ∨ p * s + q * r = -2 ^ 63 ∧ Odd (r * s)

instance (p r q s : ℤ) : Decidable (SumOverflows p r q s) :=
  inferInstanceAs (Decidable (_ ∨ _))

theorem overflowsIff_add (a b : Fraction) :
    OverflowsIff (SumOverflows a.num.toInt a.den.toInt b.num.toInt b.den.toInt) (add a b) := by
  apply (Word.overflowsIff_mul _ _).bind
  intro left hleft
  apply (Word.overflowsIff_mul _ _).bind
  intro right hright
  rw [Word.mul_eq_ok_iff] at hleft hright
  rw [← hleft, ← hright]
  apply (Word.overflowsIff_add left right).bind
  intro num hnum
  apply (Word.overflowsIff_mul _ _).bind
  intro den hden
  rw [Word.add_eq_ok_iff] at hnum
  rw [Word.mul_eq_ok_iff] at hden
  have hpos := Int.mul_pos a.den_pos b.den_pos
  rw [← hnum]
  rw [← hden] at hpos ⊢
  apply (overflowsIff_make hpos.ne').congr
  rw [or_iff_left (by omega), or_iff_right (by omega)]

theorem overflowsIff_sub (a b : Fraction) :
    OverflowsIff (SumOverflows a.num.toInt a.den.toInt (-b.num.toInt) b.den.toInt) (sub a b) := by
  rw [← toInt_num_neg, ← den_neg b]
  exact overflowsIff_add a (-b)

theorem div_eq_divisionByZero_iff {a b : Fraction} :
    div a b = .error .divisionByZero ↔ b.num.toInt = 0 := by
  constructor
  · intro h
    by_contra hb
    exact (overflowsIff_div hb).ne_error (by decide) h
  · intro h
    have hnum : b.num = 0 := Int64.toInt.inj h
    have hzero : b.isZero = true := by rw [isZero, hnum]; rfl
    rw [div, if_pos hzero]
    rfl

theorem recip_eq_divisionByZero_iff {a : Fraction} :
    recip a = .error .divisionByZero ↔ a.num.toInt = 0 := by
  constructor
  · intro h
    by_contra ha
    obtain ⟨b, hb⟩ := exists_make ha a.den_ne_min a.num_ne_min
    cases h.symm.trans hb
  · intro h
    have hnum : a.num = 0 := Int64.toInt.inj h
    rw [recip, make, dif_pos hnum]

/-! ## Small operands -/

theorem abs_mul_lt {x y : ℤ} (hx : |x| < 2 ^ 31) (hy : |y| < 2 ^ 31) : |x * y| < 2 ^ 62 := by
  rw [abs_mul]
  exact mul_lt_mul'' hx hy (abs_nonneg x) (abs_nonneg y)

theorem not_sumOverflows_of_products {p r q s : ℤ} (hps : |p * s| < 2 ^ 62)
    (hqr : |q * r| < 2 ^ 62) (hrs : |r * s| < 2 ^ 62) : ¬ SumOverflows p r q s := by
  have hps := abs_lt.1 hps
  have hqr := abs_lt.1 hqr
  have hrs := abs_lt.1 hrs
  rw [SumOverflows, Word.inRange_iff, Word.inRange_iff, Word.inRange_iff, Word.inRange_iff]
  omega

theorem not_sumOverflows {p r q s : ℤ} (hp : |p| < 2 ^ 31) (hr : |r| < 2 ^ 31) (hq : |q| < 2 ^ 31)
    (hs : |s| < 2 ^ 31) : ¬ SumOverflows p r q s :=
  not_sumOverflows_of_products (abs_mul_lt hp hs) (abs_mul_lt hq hr) (abs_mul_lt hr hs)

/-- **When arithmetic overflows.** A product or a quotient overflows exactly if one of its two
products of words reaches `2 ^ 63`, whatever the signs; a sum or a difference if one of its products
or the sum of two of them is no word, or is `-2 ^ 63` over an odd denominator. Nothing else fails
but the quotient by zero and the reciprocal of zero; every fraction has an opposite. So there is a
result for all operands with parts below `2 ^ 31`. -/
theorem arithmetic_domain (a b : Fraction) :
    OverflowsIff (2 ^ 63 ≤ |a.num.toInt * b.num.toInt| ∨ 2 ^ 63 ≤ a.den.toInt * b.den.toInt)
      (mul a b) ∧
    (div a b = .error .divisionByZero ↔ b.num.toInt = 0) ∧
    (b.num.toInt ≠ 0 → OverflowsIff
      (2 ^ 63 ≤ |a.num.toInt * b.den.toInt| ∨ 2 ^ 63 ≤ |a.den.toInt * b.num.toInt|) (div a b)) ∧
    OverflowsIff (SumOverflows a.num.toInt a.den.toInt b.num.toInt b.den.toInt) (add a b) ∧
    OverflowsIff (SumOverflows a.num.toInt a.den.toInt (-b.num.toInt) b.den.toInt) (sub a b) ∧
    (recip a = .error .divisionByZero ↔ a.num.toInt = 0) ∧
    (a.num.toInt ≠ 0 → ∃ c, recip a = .ok c) ∧
    Word.neg a.num = .ok (-a).num ∧
    ((∀ x ∈ [a.num.toInt, a.den.toInt, b.num.toInt, b.den.toInt], |x| < 2 ^ 31) →
      (∃ c, mul a b = .ok c) ∧ (b.num.toInt ≠ 0 → ∃ c, div a b = .ok c) ∧
      (∃ c, add a b = .ok c) ∧ ∃ c, sub a b = .ok c) := by
  refine ⟨overflowsIff_mul a b, div_eq_divisionByZero_iff, overflowsIff_div, overflowsIff_add a b,
    overflowsIff_sub a b, recip_eq_divisionByZero_iff,
    fun ha => exists_make ha a.den_ne_min a.num_ne_min, neg_num_eq_ok a, ?_⟩
  intro h
  simp only [List.forall_mem_cons] at h
  obtain ⟨han, had, hbn, hbd, -⟩ := h
  have hlt : ∀ {x y : ℤ}, |x| < 2 ^ 31 → |y| < 2 ^ 31 → ¬ 2 ^ 63 ≤ |x * y| := by
    intro x y hx hy
    have hxy := abs_mul_lt hx hy
    omega
  refine ⟨?_, ?_, ?_, ?_⟩
  · apply (overflowsIff_mul a b).2.2
    rintro (hnum | hden)
    · exact hlt han hbn hnum
    · exact hlt had hbd (hden.trans (le_abs_self _))
  · intro hb
    apply (overflowsIff_div hb).2.2
    rintro (hnum | hden)
    · exact hlt han hbd hnum
    · exact hlt had hbn hden
  · exact (overflowsIff_add a b).2.2 (not_sumOverflows han had hbn hbd)
  · exact (overflowsIff_sub a b).2.2 (not_sumOverflows han had ((abs_neg _).trans_lt hbn) hbd)

/-- Two sums of numerator `-2 ^ 63`, one of which can be reduced, a product and a quotient of this
numerator, and a small quotient. -/
theorem arithmetic_domain_at_bounds :
    let x : Fraction := ⟨-4611686018427387903, 2, by decide, by decide, by decide⟩
    let y : Fraction := ⟨-1, 2, by decide, by decide, by decide⟩
    let z : Fraction := ⟨-4611686018427387904, 1, by decide, by decide, by decide⟩
    let u : Fraction := ⟨2, 1, by decide, by decide, by decide⟩
    (∃ c, add x y = .ok c) ∧ add z z = .error .overflow ∧ mul z u = .error .overflow ∧
      y.num.toInt ≠ 0 ∧ div z y = .error .overflow ∧
      (∀ w ∈ [u.num.toInt, u.den.toInt, y.num.toInt, y.den.toInt], |w| < 2 ^ 31) ∧
      (∃ c, div u y = .ok c) ∧ ∃ c, recip y = .ok c := by
  intro x y z u
  have hy : y.num.toInt ≠ 0 := by
    decide
  have hsmall : ∀ w ∈ [u.num.toInt, u.den.toInt, y.num.toInt, y.den.toInt], |w| < 2 ^ 31 := by
    decide
  obtain ⟨-, -, -, hadd, -⟩ := arithmetic_domain x y
  obtain ⟨-, -, -, hoverflow, -⟩ := arithmetic_domain z z
  obtain ⟨hmul, -⟩ := arithmetic_domain z u
  obtain ⟨-, -, hdiv, -⟩ := arithmetic_domain z y
  obtain ⟨-, -, -, -, -, -, -, -, hfits⟩ := arithmetic_domain u y
  obtain ⟨-, -, -, -, -, -, hrecip, -⟩ := arithmetic_domain y y
  exact ⟨hadd.2.2 (by decide), hoverflow.1.2 (by decide), hmul.1.2 (by decide), hy,
    (hdiv hy).1.2 (by decide), hsmall, (hfits hsmall).2.1 hy, hrecip hy⟩

end Fraction

end ExactLinAlg
