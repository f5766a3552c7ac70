import ExactLinAlg.Elimination.Determinant
import ExactLinAlg.Proofs.Tableau
import ExactLinAlg.Proofs.Triangular

/-!
# The determinant is exact

Elimination keeps the determinant up to the sign that `odd` records, and makes the entries below the
diagonal zero column by column (`Tableau.zeroBelow_succ`). A column without a pivot closes a
singular corner, and otherwise the determinant is the signed product of the diagonal.
-/

namespace ExactLinAlg

open Matrix

/-! ## Elimination -/

/-- The sign of a number of exchanges. -/
def sign (odd : Bool) : ℚ := if odd then -1 else 1

@[simp] theorem sign_mul_self (odd : Bool) : sign odd * sign odd = 1 := by
  cases odd <;> norm_num [sign]

theorem sign_bne (odd swapped : Bool) : sign (odd != swapped) = sign odd * sign swapped := by
  cases odd <;> cases swapped <;> norm_num [sign]

namespace Tableau

theorem cancels_oppositeQuotient {pivot : Fraction} (h : pivot.toRat ≠ 0) :
    Cancels pivot.toRat (oppositeQuotient pivot) := by
  intro e
  apply (Fraction.ends_div h).bind
  intro q hq
  apply Ends.pure
  rw [Fraction.toRat_neg, hq]

/-- One column of the elimination. -/
theorem zeroBelow_succ {A B C : ℕ → ℕ → ℚ} {k : ℕ} (h : ZeroBelow A k) (hB : Raises A B k k)
    (hC : Clears B C k k (k < ·)) : ZeroBelow C (k + 1) := by
  intro j hj i hij
  rcases Nat.lt_succ_iff_lt_or_eq.1 hj with hj | rfl
  · have hzero := hB.zero j fun i hi => h j hj i (by omega)
    rw [hC.keep (hzero k le_rfl)]
    rcases Nat.lt_or_ge i k with hik | hik
    · rw [hB.above i hik, h j hj i hij]
    · exact hzero i hik
  · exact hC.eq_zero hB.pivot_ne_zero hij

/-- What the elimination may answer. -/
def IsTriangulated (n : ℕ) (t : Tableau) (odd : Bool) : Option (Tableau × Bool) → Prop
  | none => (t.main.toMatrix n n).det = 0
  | some (u, odd') => u.WellFormed n ∧ u.main.cols = n ∧ ZeroBelow u.main.value n ∧
      sign odd' * (u.main.toMatrix n n).det = sign odd * (t.main.toMatrix n n).det

theorem ends_triangulate {n : ℕ} (c : ℕ) :
    ∀ {k : ℕ} {t : Tableau} (odd : Bool), k + c = n → t.WellFormed n → t.main.cols = n →
      ZeroBelow t.main.value k →
      Ends Error.IsOverflow (IsTriangulated n t odd)
        (t.triangulate odd (List.range' k c)).outcome := by
  induction c with
  | zero =>
    intro k t odd hk ht hcols hzero
    rw [Nat.add_zero] at hk
    exact ⟨ht, hcols, hk ▸ hzero, rfl⟩
  | succ c ih =>
    intro k t odd hk ht hcols hzero
    have hkn : k < n := by omega
    rw [List.range'_succ]
    refine Traced.ends_bind (ends_fetchPivot ht (hcols ▸ hkn) k) fun o ho => ?_
    rcases o with _ | ⟨u, swapped⟩
    · exact hzero.det_eq_zero_of_gap hkn ho
    obtain ⟨hu, hraises⟩ := ho
    have hkcols : k < u.main.cols := by rw [hu.cols, hcols]; exact hkn
    have hkrows : k < u.main.rows := by rw [hu.wellFormed.rows]; exact hkn
    refine Traced.ends_bind (hu.wellFormed.main.ends_entry hkrows hkcols) fun pivot hpivot => ?_
    have hne := hraises.pivot_ne_zero
    refine Traced.ends_bind (ends_clearBelow hu.wellFormed hkcols hne
      (hpivot ▸ cancels_oppositeQuotient (hpivot ▸ hne))) fun v ⟨hv, hclears⟩ => ?_
    have hdet : (v.main.toMatrix n n).det = sign swapped * (t.main.toMatrix n n).det := by
      rw [hv.det, hu.det, one_mul, sign]
    refine (ih _ (by omega) hv.wellFormed (by rw [hv.cols, hu.cols, hcols])
      (zeroBelow_succ hzero hraises hclears)).imp fun o ho => ?_
    rcases o with _ | ⟨w, odd'⟩
    · have h0 : sign swapped * (sign swapped * (t.main.toMatrix n n).det) = 0 := by
        rw [← hdet, show (v.main.toMatrix n n).det = 0 from ho, mul_zero]
      rwa [← mul_assoc, sign_mul_self, one_mul] at h0
    · obtain ⟨hw, hwcols, hwzero, hwdet⟩ := ho
      refine ⟨hw, hwcols, hwzero, ?_⟩
      rw [hwdet, hdet, sign_bne, mul_assoc, ← mul_assoc (sign swapped), sign_mul_self, one_mul]

end Tableau

namespace Mat

theorem ends_diagonalProduct {m : Mat} {n : ℕ} (hm : m.WellFormed) (hrows : m.rows = n)
    (hcols : m.cols = n) (start : Fraction) :
    Ends Error.IsOverflow
      (fun d => d.toRat = start.toRat * ∏ i ∈ Finset.range n, m.value i i)
      (m.diagonalProduct n start) := by
  apply Ends.foldlM_range
    (I := fun i (d : Fraction) => d.toRat = start.toRat * ∏ j ∈ Finset.range i, m.value j j)
  · simp
  · intro i hi d hd
    apply (hm.ends_entry (hrows ▸ hi) (hcols ▸ hi)).bind
    intro x hx
    apply (Fraction.ends_mul d x).imp
    intro p hp
    rw [hp, hd, hx, Finset.prod_range_succ, mul_assoc]

theorem ends_triangulate_self {m : Mat} {n : ℕ} (hm : m.WellFormed) (hrows : m.rows = n)
    (hcols : m.cols = n) :
    Ends Error.IsOverflow (Tableau.IsTriangulated n ⟨m, none⟩ false)
      (Tableau.triangulate ⟨m, none⟩ false (List.range n)).outcome := by
  have ht : Tableau.WellFormed n ⟨m, none⟩ := ⟨hm, hrows, fun k hk => nomatch hk⟩
  have hstart : ZeroBelow m.value 0 := fun j hj => absurd hj (Nat.not_lt_zero j)
  rw [List.range_eq_range']
  exact Tableau.ends_triangulate n false (Nat.zero_add n) ht hcols hstart

/-- The determinant of a square matrix is exact or overflows. -/
theorem ends_determinant {m : Mat} {n : ℕ} (hm : m.WellFormed) (hrows : m.rows = n)
    (hcols : m.cols = n) :
    Ends Error.IsOverflow (fun d => d.toRat = (m.toMatrix n n).det) m.determinant.outcome := by
  rw [determinant, hrows]
  refine Traced.ends_bind (ends_checkSquare (hrows.trans hcols.symm)) fun _ _ => ?_
  refine Traced.ends_bind (ends_triangulate_self hm hrows hcols) fun o ho => ?_
  rcases o with _ | ⟨u, odd⟩
  · apply Ends.pure
    rw [Fraction.toRat_zero]
    exact ho.symm
  · obtain ⟨hu, hucols, hzero, hdet⟩ := ho
    refine (ends_diagonalProduct hu.main hu.rows hucols _).imp fun d hd => ?_
    have hone : sign false * (m.toMatrix n n).det = (m.toMatrix n n).det := one_mul _
    rw [hd, ← hone, ← hdet, toMatrix, hzero.det, sign]
    congr 1
    cases odd
    · exact Fraction.toRat_one
    · exact Fraction.toRat_neg 1 |>.trans (by rw [Fraction.toRat_one]; rfl)

/-- **The determinant.** What elimination gives for a square matrix is its determinant: the signed
determinant of the triangular form, or zero when a column has no pivot. So it is multiplicative and
the same for the transposed matrix. -/
theorem determinant_exact {m : Mat} {n : ℕ} (hm : m.WellFormed) (hrows : m.rows = n)
    (hcols : m.cols = n) :
    (∀ d, m.determinant.outcome = .ok d → d.toRat = (m.toMatrix n n).det) ∧
    (∀ t odd, (Tableau.triangulate ⟨m, none⟩ false (List.range n)).outcome = .ok (some (t, odd)) →
      (t.main.toMatrix n n).IsUpperTriangular ∧
        (m.toMatrix n n).det = sign odd * (t.main.toMatrix n n).det) ∧
    ((Tableau.triangulate ⟨m, none⟩ false (List.range n)).outcome = .ok none →
      m.determinant.outcome = .ok 0 ∧ (m.toMatrix n n).det = 0) ∧
    (∀ a p d e f, a.WellFormed → a.rows = n → a.cols = n → m.mul a = .ok p →
      m.determinant.outcome = .ok d → a.determinant.outcome = .ok e →
      p.determinant.outcome = .ok f → f.toRat = d.toRat * e.toRat) ∧
    ∀ d e, m.determinant.outcome = .ok d → m.transposed.determinant.outcome = .ok e → e = d := by
  have htriangle := ends_triangulate_self hm hrows hcols
  refine ⟨fun d => (ends_determinant hm hrows hcols).of_ok, ?_, ?_, ?_, ?_⟩
  · intro t odd h
    obtain ⟨-, -, hzero, hdet⟩ := htriangle.of_ok h
    refine ⟨hzero.isUpperTriangular, ?_⟩
    rw [hdet, sign, if_neg Bool.false_ne_true, one_mul]
  · intro h
    have hsquare : m.checkSquare = .ok () := if_pos (hrows.trans hcols.symm)
    refine ⟨?_, htriangle.of_ok h⟩
    rw [determinant, hsquare, hrows, Traced.outcome_bind, Traced.outcome_bind, h]
    rfl
  · intro a p d e f ha harows hacols hp hd he hf
    obtain ⟨hpwf, hprows, hpcols⟩ := hm.of_mul hp
    have hprod := toMatrix_of_mul hm ha hp
    rw [hrows, hcols, hacols] at hprod
    rw [(ends_determinant hm hrows hcols).of_ok hd, (ends_determinant ha harows hacols).of_ok he,
      (ends_determinant hpwf (hprows.trans hrows) (hpcols.trans hacols)).of_ok hf, hprod, det_mul]
  · intro d e hd he
    apply Fraction.toRat_injective
    have htrans := wellFormed_transposed m hm.length_data
    rw [(ends_determinant hm hrows hcols).of_ok hd,
      (ends_determinant htrans hcols hrows).of_ok he, toMatrix_transposed hm, det_transpose]

theorem determinant_exact_offDiagonal :
    let m := Mat.build 3 3 fun i j => if i = j then 0 else 1
    m.WellFormed ∧ m.rows = 3 ∧ m.cols = 3 ∧
      m.determinant.outcome = .ok (Fraction.ofInt32 2) ∧
      (Fraction.ofInt32 2).toRat = (m.toMatrix 3 3).det := by
  intro m
  have hm : m.WellFormed := wellFormed_build 3 3 _
  have hd : m.determinant.outcome = .ok (Fraction.ofInt32 2) := by
    show (determinant (Mat.build 3 3 fun i j => if i = j then 0 else 1)).outcome = _
    decide +kernel
  exact ⟨hm, rfl, rfl, hd, (determinant_exact hm rfl rfl).1 _ hd⟩

end Mat

end ExactLinAlg
