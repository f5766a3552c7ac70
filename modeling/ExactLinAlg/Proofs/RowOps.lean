import ExactLinAlg.Proofs.Entries

/-!
# Row operations as matrices

Each row operation acts on rows of rational numbers (`RowOp.act`), which is multiplication by its
elementary matrix from the left (`RowOp.act_eq_sum`), and multiplies determinants by a factor
(`RowOp.det_matrix`). On a matrix of fractions it has exactly this effect, unless it overflows
(`RowOp.ends_apply`).
-/

namespace ExactLinAlg.RowOp

open Matrix

/-- The rows that the operation names are among the first `r`. -/
def InRange (r : ℕ) : RowOp → Prop
  | swap i j => i < r ∧ j < r
  | scale _ i => i < r
  | addScaled _ source target => source < r ∧ target < r

/-- The operation on rows of rational numbers. -/
def act (op : RowOp) (A : ℕ → ℕ → ℚ) : ℕ → ℕ → ℚ :=
  match op with
  | swap i j => fun a => A (Equiv.swap i j a)
  | scale f i => Function.update A i (f.toRat • A i)
  | addScaled f source target => Function.update A target (A target + f.toRat • A source)

theorem act_swap (i j : ℕ) (A : ℕ → ℕ → ℚ) (a : ℕ) : (swap i j).act A a = A (Equiv.swap i j a) :=
  rfl

/-- The elementary matrix of the operation, its result on the identity. -/
def matrix (r : ℕ) (op : RowOp) : Matrix (Fin r) (Fin r) ℚ :=
  Matrix.of fun a b => op.act (fun i j => if i = j then 1 else 0) a b

/-- What the operation multiplies determinants by. -/
def factor : RowOp → ℚ
  | swap i j => if i = j then 1 else -1
  | scale f _ => f.toRat
  | addScaled f source target => if source = target then 1 + f.toRat else 1

/-! ## The effect on a matrix of fractions -/

private theorem ends_apply_value {m : Mat} (hm : m.WellFormed) {op : RowOp}
    (h : op.InRange m.rows) :
    Ends Error.IsOverflow (fun n => n.value = op.act m.value) (op.apply m) := by
  cases op with
  | swap i j =>
    refine (hm.ends_line h.1).bind fun upper ⟨_, hupper⟩ => ?_
    refine (hm.ends_line h.2).bind fun lower ⟨hlen, hlower⟩ => ?_
    apply Ends.pure
    rw [(hm.withLine i hlen).value_withLine h.2, hm.value_withLine h.1, hupper, hlower]
    funext a
    by_cases haj : a = j
    · rw [haj, Function.update_self, act_swap, Equiv.swap_apply_right]
    · rw [Function.update_of_ne haj]
      by_cases hai : a = i
      · rw [hai, Function.update_self, act_swap, Equiv.swap_apply_left]
      · rw [Function.update_of_ne hai, act_swap, Equiv.swap_apply_of_ne_of_ne hai haj]
  | scale f i =>
    refine (hm.ends_line h).bind fun row ⟨_, hrow⟩ => ?_
    refine (Vec.ends_scale row f).bind fun scaled ⟨_, hscaled⟩ => ?_
    apply Ends.pure
    rw [hm.value_withLine h, act, ← hrow]
    congr 1
    funext j
    exact hscaled j
  | addScaled f source target =>
    refine (hm.ends_line h.1).bind fun added ⟨haddedLen, hadded⟩ => ?_
    refine (hm.ends_line h.2).bind fun row ⟨hrowLen, hrow⟩ => ?_
    refine (Vec.ends_addScaled f (hrowLen.trans haddedLen.symm)).bind fun sum ⟨_, hsum⟩ => ?_
    apply Ends.pure
    rw [hm.value_withLine h.2, act, ← hrow, ← hadded]
    congr 1
    funext j
    exact hsum j

/-- A row operation on rows of the matrix is exact, or overflows. -/
theorem ends_apply {m : Mat} (hm : m.WellFormed) {op : RowOp} (h : op.InRange m.rows) :
    Ends Error.IsOverflow
      (fun n => n.WellFormed ∧ n.rows = m.rows ∧ n.cols = m.cols ∧ n.value = op.act m.value)
      (op.apply m) :=
  (ends_apply_value hm h).strengthen fun _ hn hvalue =>
    let ⟨hwf, hrows, hcols⟩ := wellFormed_of_apply hm hn
    ⟨hwf, hrows, hcols, hvalue⟩

/-! ## Elementary matrices -/

section Elementary

variable {r : ℕ}

/-- The sum of products with a unit vector. -/
theorem sum_unit_mul {c : ℕ} (hc : c < r) (f : ℕ → ℚ) :
    ∑ k : Fin r, (if c = k then 1 else 0) * f k = f c := by
  rw [Finset.sum_eq_single ⟨c, hc⟩]
  · simp
  · intro k _ hk
    rw [if_neg fun h => hk (Fin.ext h.symm), zero_mul]
  · intro h
    exact absurd (Finset.mem_univ _) h

/-- A row operation multiplies by its elementary matrix from the left. -/
theorem act_eq_sum {op : RowOp} (h : op.InRange r) (A : ℕ → ℕ → ℚ) (a : Fin r) (b : ℕ) :
    op.act A a b = ∑ k : Fin r, op.matrix r a k * A k b := by
  cases op with
  | swap i j =>
    have hlt : Equiv.swap i j (a : ℕ) < r := by
      rw [Equiv.swap_apply_def]
      split_ifs
      · exact h.2
      · exact h.1
      · exact a.isLt
    exact (sum_unit_mul hlt fun k => A k b).symm
  | scale f i =>
    by_cases ha : (a : ℕ) = i
    · simp only [matrix, act, of_apply, ha, Function.update_self, Pi.smul_apply, smul_eq_mul,
        mul_assoc, ← Finset.mul_sum]
      rw [sum_unit_mul h fun k => A k b]
    · simp only [matrix, act, of_apply, Function.update_of_ne ha]
      exact (sum_unit_mul a.isLt fun k => A k b).symm
  | addScaled f source target =>
    by_cases ha : (a : ℕ) = target
    · simp only [matrix, act, of_apply, ha, Function.update_self, Pi.add_apply, Pi.smul_apply,
        smul_eq_mul, add_mul, Finset.sum_add_distrib, mul_assoc, ← Finset.mul_sum]
      rw [sum_unit_mul h.1 fun k => A k b, sum_unit_mul h.2 fun k => A k b]
    · simp only [matrix, act, of_apply, Function.update_of_ne ha]
      exact (sum_unit_mul a.isLt fun k => A k b).symm

private theorem matrix_swap (i j : Fin r) :
    (swap i j).matrix r = (1 : Matrix (Fin r) (Fin r) ℚ).submatrix (Equiv.swap i j) id := by
  ext a b
  simp only [matrix, act, of_apply, submatrix_apply, id_eq, one_apply, Equiv.swap_apply_def,
    Fin.ext_iff]
  split_ifs <;> simp_all

private theorem matrix_scale (f : Fraction) (i : Fin r) :
    (scale f i).matrix r =
      updateRow 1 i (f.toRat • (1 : Matrix (Fin r) (Fin r) ℚ) i) := by
  ext a b
  simp only [matrix, act, of_apply, updateRow_apply, Function.update_apply, one_apply,
    Pi.smul_apply, Fin.ext_iff]
  split_ifs <;> simp_all

private theorem matrix_addScaled (f : Fraction) (s t : Fin r) :
    (addScaled f s t).matrix r =
      updateRow 1 t ((1 : Matrix (Fin r) (Fin r) ℚ) t + f.toRat • (1 : Matrix _ _ ℚ) s) := by
  ext a b
  simp only [matrix, act, of_apply, updateRow_apply, Function.update_apply, one_apply,
    Pi.add_apply, Pi.smul_apply, Fin.ext_iff]
  split_ifs <;> simp_all

theorem det_matrix {op : RowOp} (h : op.InRange r) : (op.matrix r).det = op.factor := by
  cases op with
  | swap i j =>
    rw [matrix_swap ⟨i, h.1⟩ ⟨j, h.2⟩, det_permute, det_one, mul_one, factor]
    by_cases hij : i = j
    · subst hij
      simp
    · rw [Equiv.Perm.sign_swap fun h' => hij (Fin.ext_iff.1 h'), if_neg hij]
      simp
  | scale f i =>
    rw [matrix_scale f ⟨i, h⟩, det_updateRow_smul, updateRow_eq_self, det_one, mul_one, factor]
  | addScaled f s t =>
    rw [matrix_addScaled f ⟨s, h.1⟩ ⟨t, h.2⟩, factor]
    by_cases hst : s = t
    · subst hst
      rw [det_updateRow_add, det_updateRow_smul, updateRow_eq_self, det_one, if_pos rfl, mul_one]
    · rw [det_updateRow_add_smul_self _ fun h' => hst (Fin.ext_iff.1 h').symm, det_one, if_neg hst]

end Elementary

end ExactLinAlg.RowOp
