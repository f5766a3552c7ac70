import ExactLinAlg.Proofs.Overflow

/-!
# The order of fractions

`Fraction.compare` gives the order of the values, as far as both cross products are words. The same
two products decide in both directions, so the reversed comparison has the reversed order or fails
as well (`Fraction.compare_swap`). A third fraction may have cross products with both ends of a
chain that are no words, though those with the middle are.
-/

namespace ExactLinAlg.Fraction

theorem overflowsIff_compare (a b : Fraction) :
    OverflowsIff (¬ Word.InRange (a.num.toInt * b.den.toInt) ∨
      ¬ Word.InRange (b.num.toInt * a.den.toInt)) (compare a b) := by
  apply (Word.overflowsIff_mul _ _).bind
  intro left _
  apply (Word.overflowsIff_mul _ _).bind_of_exists
  intro right
  exact ⟨_, rfl⟩

/-- The order of the values. -/
theorem eq_order_of_compare {a b : Fraction} {o : Ordering} (h : compare a b = .ok o) :
    o = Ord.compare a.toRat b.toRat := by
  obtain ⟨hlt, heq, hgt⟩ := order_of_compare h
  cases o with
  | lt => exact (compare_lt_iff_lt.2 (hlt.1 rfl)).symm
  | eq => exact (compare_eq_iff_eq.2 (heq.1 rfl)).symm
  | gt => exact (compare_gt_iff_gt.2 (hgt.1 rfl)).symm

/-- The reversed comparison, failures included. -/
theorem compare_swap (a b : Fraction) : compare b a = (compare a b).map Ordering.swap := by
  unfold compare
  cases hleft : Word.mul a.num b.den with
  | ok left =>
    cases Word.mul b.num a.den with
    | ok right => exact congrArg Except.ok (Int.compare_swap _ _).symm
    | error e => rfl
  | error e =>
    cases hright : Word.mul b.num a.den with
    | ok right => rfl
    | error e' =>
      rw [(Word.ends_mul _ _).of_error hleft, (Word.ends_mul _ _).of_error hright]
      rfl

/-- Only a fraction itself has its value. -/
theorem eq_of_compare {a b : Fraction} (h : compare a b = .ok .eq) : a = b :=
  toRat_injective ((order_of_compare h).2.1.1 rfl)

theorem compare_trans {a b c : Fraction} (h : compare a b = .ok .lt) (h' : compare b c = .ok .lt) :
    compare a c = .ok .lt ∨ compare a c = .error .overflow := by
  have hlt : a.toRat < c.toRat :=
    ((order_of_compare h).1.1 rfl).trans ((order_of_compare h').1.1 rfl)
  cases hac : compare a c with
  | ok o =>
    left
    rw [(order_of_compare hac).1.2 hlt]
  | error e =>
    right
    rw [(ends_compare a c).of_error hac]

/-! ## Signs -/

theorem signum_neg_iff {a : Fraction} : a.signum < 0 ↔ a.toRat < 0 := by
  rw [signum, Int.sign_neg_iff, ← Rat.num_neg, a.toRat_parts.1]

theorem signum_eq_zero_iff {a : Fraction} : a.signum = 0 ↔ a.toRat = 0 := by
  rw [signum, Int.sign_eq_zero_iff_zero, ← Rat.num_eq_zero, a.toRat_parts.1]

theorem signum_pos_iff {a : Fraction} : 0 < a.signum ↔ 0 < a.toRat := by
  rw [signum, Int.sign_pos_iff, ← Rat.num_pos, a.toRat_parts.1]

/-- The sign of a difference is the order of its operands. -/
theorem eq_order_of_sub {a b d : Fraction} {o : Ordering} (ho : compare a b = .ok o)
    (hd : sub a b = .ok d) : o = Ord.compare d.signum 0 := by
  have hvalue := toRat_of_sub hd
  obtain ⟨hlt, heq, hgt⟩ := order_of_compare ho
  cases o with
  | lt =>
    have hneg : d.toRat < 0 := hvalue ▸ sub_neg.2 (hlt.1 rfl)
    exact (compare_lt_iff_lt.2 (signum_neg_iff.2 hneg)).symm
  | eq =>
    have hzero : d.toRat = 0 := hvalue ▸ sub_eq_zero.2 (heq.1 rfl)
    exact (compare_eq_iff_eq.2 (signum_eq_zero_iff.2 hzero)).symm
  | gt =>
    have hpos : 0 < d.toRat := hvalue ▸ sub_pos.2 (hgt.1 rfl)
    exact (compare_gt_iff_gt.2 (signum_pos_iff.2 hpos)).symm

/-- **The order of fractions.** The comparison of two fractions overflows exactly if one of their
cross products is no word, and gives the order of their values otherwise. The reversed comparison
has the reversed order, and overflows if this one does; only equal fractions compare as equal; a
chain of two fractions that compare as less leads to one that compares as less, or overflows. The
sign of the difference, where there is one, tells the order too. -/
theorem compare_exact (a b c : Fraction) :
    OverflowsIff (¬ Word.InRange (a.num.toInt * b.den.toInt) ∨
      ¬ Word.InRange (b.num.toInt * a.den.toInt)) (compare a b) ∧
    (∀ o, compare a b = .ok o → o = Ord.compare a.toRat b.toRat) ∧
    compare b a = (compare a b).map Ordering.swap ∧
    (compare a b = .ok .eq → a = b) ∧
    (compare a b = .ok .lt → compare b c = .ok .lt →
      compare a c = .ok .lt ∨ compare a c = .error .overflow) ∧
    ∀ o d, compare a b = .ok o → sub a b = .ok d → o = Ord.compare d.signum 0 :=
  ⟨overflowsIff_compare a b, fun _ => eq_order_of_compare, compare_swap a b, eq_of_compare,
    compare_trans, fun _ _ => eq_order_of_sub⟩

/-- A chain of fractions, of which the first and the last have a cross product that is no word; the
difference of two of them; and one that is compared with the same fraction read from an integer. -/
theorem compare_exact_of_chain :
    let x : Fraction := ⟨1, 4611686018427387903, by decide, by decide, by decide⟩
    let y : Fraction := ⟨2, 1, by decide, by decide, by decide⟩
    let z : Fraction := ⟨3, 1, by decide, by decide, by decide⟩
    let u : Fraction := ofInt32 2
    compare x y = .ok .lt ∧ Ordering.lt = Ord.compare x.toRat y.toRat ∧ compare y z = .ok .lt ∧
      compare x z = .error .overflow ∧ compare z x = .error .overflow ∧
      (compare x z = .ok .lt ∨ compare x z = .error .overflow) ∧
      sub y z = .ok (-1) ∧ Ordering.lt = Ord.compare (-1 : Fraction).signum 0 ∧
      compare u y = .ok .eq ∧ u = y := by
  intro x y z u
  have hxy : compare x y = .ok .lt := by
    decide +kernel
  have hyz : compare y z = .ok .lt := by
    decide +kernel
  have huy : compare u y = .ok .eq := by
    decide +kernel
  have hsub : sub y z = .ok (-1) := by
    decide +kernel
  obtain ⟨-, horder, -, -, htrans, -⟩ := compare_exact x y z
  obtain ⟨hoverflow, -, hswap, -⟩ := compare_exact x z y
  obtain ⟨-, -, -, -, -, hsign⟩ := compare_exact y z x
  obtain ⟨-, -, -, hsame, -⟩ := compare_exact u y y
  have hxz : compare x z = .error .overflow := hoverflow.1.2 (by decide)
  rw [hxz] at hswap
  exact ⟨hxy, horder _ hxy, hyz, hxz, hswap, htrans hxy hyz, hsub, hsign _ _ hyz hsub, huy,
    hsame huy⟩

end ExactLinAlg.Fraction
