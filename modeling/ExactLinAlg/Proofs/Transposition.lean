import ExactLinAlg.Proofs.Product

/-!
# Products of transposed matrices

The entries of the product of two transposed matrices are added up from the same products in the
same order as those of the product itself, with the factors exchanged
(`Mat.accumulate_transposed`). So the two products fail together, even in the middle of a sum.
-/

namespace ExactLinAlg.Mat

/-! ## Transposition -/

theorem entry_transposed {m : Mat} (hm : m.WellFormed) {i j : ℕ} (hi : i < m.cols)
    (hj : j < m.rows) : m.transposed.entry i j = m.entry j i := by
  obtain ⟨x, hx, hvalue⟩ := (hm.ends_entry hj hi).exists_ok
  rw [hx]
  apply entry_eq_ok (wellFormed_transposed m hm.length_data) hj hi
  rw [value_transposed hm, hvalue]

theorem transposed_transposed {m : Mat} (hm : m.WellFormed) : m.transposed.transposed = m := by
  have htrans := wellFormed_transposed m hm.length_data
  apply ext_value (wellFormed_transposed _ htrans.length_data) hm rfl rfl
  intro i j
  rw [value_transposed htrans, value_transposed hm]

theorem mul_of_cols_ne {m n : Mat} (h : m.cols ≠ n.rows) :
    m.mul n = .error (.dimensionMismatch m.cols n.rows) := by
  rw [mul, checkDims, if_neg h]
  rfl

/-! ## Products -/

section Product

variable {m n : Mat} (hm : m.WellFormed) (hn : n.WellFormed) (hdims : m.cols = n.rows)
include hm hn hdims

theorem accumulate_transposed {i j : ℕ} (hi : i < m.rows) (hj : j < n.cols) :
    n.transposed.accumulate m.transposed j i = m.accumulate n i j := by
  show (List.range n.rows).foldlM _ _ = _
  rw [← hdims]
  apply foldlM_congr
  intro sum k hk
  have hk := List.mem_range.1 hk
  have hkn : k < n.rows := hdims ▸ hk
  obtain ⟨x, hx, -⟩ := (hm.ends_entry hi hk).exists_ok
  obtain ⟨y, hy, -⟩ := (hn.ends_entry hkn hj).exists_ok
  rw [entry_transposed hn hj hkn, entry_transposed hm hk hi, hx, hy]
  show (Fraction.mul y x >>= _) = (Fraction.mul x y >>= _)
  rw [Fraction.mul_comm]

theorem IsMul.transposed {p : Mat} (h : IsMul m n p) :
    IsMul n.transposed m.transposed p.transposed := by
  refine ⟨wellFormed_transposed p h.wellFormed.length_data, h.cols, h.rows, fun j hj i hi => ?_⟩
  rw [accumulate_transposed hm hn hdims hi hj, value_transposed h.wellFormed]
  exact h.value i hi j hj

theorem MulFails.transposed {e : Error} (h : MulFails m n e) :
    MulFails n.transposed m.transposed e := by
  obtain ⟨i, hi, j, hj, hfails⟩ := h
  exact ⟨j, hj, i, hi, (accumulate_transposed hm hn hdims hi hj).trans hfails⟩

/-- The product of the transposed matrices ends as the product does. -/
theorem mul_transposed : n.transposed.mul m.transposed = (m.mul n).map transposed := by
  have hmt := wellFormed_transposed m hm.length_data
  have hnt := wellFormed_transposed n hn.length_data
  apply eq_of_ends_mul hnt hmt hdims.symm (ends_mul hnt hmt hdims.symm)
  have hrun := ends_mul hm hn hdims
  cases hp : m.mul n with
  | ok p => exact (hrun.of_ok hp).transposed hm hn hdims
  | error e => exact (hrun.of_error hp).transposed hm hn hdims

end Product

/-- **Transposition reverses products.** The product of two transposed matrices in reverse order is
the transposed product. It overflows exactly if the product does, and the dimensions mismatch
exactly if those of the product do, the other way round. Transposing twice gives back every
matrix. -/
theorem transposed_product {m n : Mat} (hm : m.WellFormed) (hn : n.WellFormed) :
    (∀ t, n.transposed.mul m.transposed = .ok t ↔ ∃ p, m.mul n = .ok p ∧ t = p.transposed) ∧
    (n.transposed.mul m.transposed = .error .overflow ↔ m.mul n = .error .overflow) ∧
    (∀ expected got, n.transposed.mul m.transposed = .error (.dimensionMismatch expected got) ↔
      m.mul n = .error (.dimensionMismatch got expected)) ∧
    m.transposed.transposed = m := by
  by_cases hdims : m.cols = n.rows
  · have herror : ∀ e, m.mul n = .error e → e = .overflow := fun e he =>
      error_of_mulFails hm hn hdims ((ends_mul hm hn hdims).of_error he)
    rw [mul_transposed hm hn hdims]
    cases hp : m.mul n with
    | ok p => simp [Except.map, transposed_transposed hm, eq_comm]
    | error e =>
      cases herror e hp
      simp [Except.map, transposed_transposed hm]
  · rw [mul_of_cols_ne hdims, mul_of_cols_ne (Ne.symm hdims)]
    refine ⟨by simp, by simp, fun expected got => ?_, transposed_transposed hm⟩
    simp [transposed, and_comm]

/-- Products over no columns, an overflow in both orders, a mismatch, and shapes with no rows. -/
theorem transposed_product_degenerate :
    let x : Fraction := ⟨1099511627776, 1, by decide, by decide, by decide⟩
    let m : Mat := ⟨1, 2, [[x, 1]]⟩
    let n : Mat := ⟨2, 2, [[1, x], [1, 1]]⟩
    let l : Mat := ⟨0, 3, []⟩
    let o : Mat := ⟨2, 0, [[], []]⟩
    m.WellFormed ∧ n.WellFormed ∧ l.WellFormed ∧ o.WellFormed ∧
      n.transposed.mul m.transposed = .error .overflow ∧
      l.transposed.mul o.transposed = .ok (zeros 2 3).transposed ∧
      l.transposed.mul m.transposed = .error (.dimensionMismatch 0 2) ∧
      l.transposed.transposed = l ∧ o.transposed.transposed = o := by
  intro x m n l o
  have hm : m.WellFormed := ⟨rfl, by simp [m]⟩
  have hn : n.WellFormed := ⟨rfl, by simp [n]⟩
  have hl : l.WellFormed := ⟨rfl, by simp [l]⟩
  have ho : o.WellFormed := ⟨rfl, by simp [o]⟩
  have hoverflow : m.mul n = .error .overflow := by
    decide +kernel
  have hzeros : o.mul l = .ok (zeros 2 3) := by
    decide +kernel
  have hmismatch : m.mul l = .error (.dimensionMismatch 2 0) := by
    decide +kernel
  obtain ⟨-, hoverflows, -⟩ := transposed_product hm hn
  obtain ⟨hproduct, -, -, htwice⟩ := transposed_product ho hl
  obtain ⟨-, -, hmismatches, -⟩ := transposed_product hm hl
  obtain ⟨-, -, -, htwice'⟩ := transposed_product hl hl
  exact ⟨hm, hn, hl, ho, hoverflows.2 hoverflow, (hproduct _).2 ⟨_, hzeros, rfl⟩,
    (hmismatches 0 2).2 hmismatch, htwice', htwice⟩

end ExactLinAlg.Mat
