import ExactLinAlg.Proofs.Entries

/-!
# Triangular matrices and systems

An array of rational numbers whose first columns are zero below the diagonal (`ZeroBelow`): its
determinant, the gap that makes it singular, and the systems that are solved from the last unknown
to the first (`SolvesFrom`).
-/

namespace ExactLinAlg

open Matrix

/-! ## Determinants -/

/-- The entries below the diagonal are zero in the first `k` columns. -/
def ZeroBelow (A : ℕ → ℕ → ℚ) (k : ℕ) : Prop := ∀ j, j < k → ∀ i, j < i → A i j = 0

section Triangular

variable {n k : ℕ} {A : ℕ → ℕ → ℚ}

theorem ZeroBelow.isUpperTriangular (h : ZeroBelow A n) :
    (Matrix.of fun i j : Fin n => A i j).IsUpperTriangular :=
  fun i j hij => h j j.isLt i hij

theorem ZeroBelow.det (h : ZeroBelow A n) :
    (Matrix.of fun i j : Fin n => A i j).det = ∏ i ∈ Finset.range n, A i i := by
  rw [det_of_isUpperTriangular h.isUpperTriangular, Finset.prod_range]
  rfl

/-- A column that is zero from the diagonal on makes the matrix singular when the columns before it
are zero below the diagonal. -/
theorem ZeroBelow.det_eq_zero_of_gap (h : ZeroBelow A k) (hk : k < n)
    (hgap : ∀ i, k ≤ i → A i k = 0) : (Matrix.of fun i j : Fin n => A i j).det = 0 := by
  -- the rows and columns up to `k` form a triangular block with a zero in its corner
  have hblock : ∀ i : Fin n, ¬ (i : ℕ) ≤ k → ∀ j : Fin n, (j : ℕ) ≤ k → A i j = 0 := by
    intro i hi j hj
    rcases Nat.lt_or_eq_of_le hj with hj | hj
    · exact h j hj i (by omega)
    · rw [hj]
      exact hgap i (by omega)
  rw [twoBlockTriangular_det (Matrix.of fun i j : Fin n => A i j) (fun i => (i : ℕ) ≤ k) hblock]
  have hupper : (toSquareBlockProp (Matrix.of fun i j : Fin n => A i j)
      fun i : Fin n => (i : ℕ) ≤ k).IsUpperTriangular := by
    rintro ⟨i, hi⟩ ⟨j, hj⟩ hij
    exact h j (lt_of_lt_of_le hij hi) i hij
  rw [det_of_isUpperTriangular hupper,
    Finset.prod_eq_zero (Finset.mem_univ ⟨⟨k, hk⟩, le_rfl⟩) (hgap k le_rfl), zero_mul]

end Triangular

/-! ## Systems -/

/-- The values of the unknowns from `i` on solve the equations from `i` on, with the right-hand side
in column `n`. -/
def SolvesFrom (A : ℕ → ℕ → ℚ) (n i : ℕ) (known : Vec) : Prop :=
  ∀ a, i ≤ a → a < n → ∑ j ∈ Finset.Ico a n, A a j * Vec.value known (j - i) = A a n

/-- One more unknown does not change the equations that it does not occur in. -/
theorem SolvesFrom.cons {A : ℕ → ℕ → ℚ} {n i : ℕ} {known : Vec} {x : Fraction}
    (h : SolvesFrom A n (i + 1) known) (hi : i < n) (hone : A i i = 1)
    (hx : x.toRat = A i n - ∑ j ∈ Finset.Ico (i + 1) n, A i j * Vec.value known (j - (i + 1))) :
    SolvesFrom A n i (x :: known) := by
  have hshift : ∀ a, i < a → ∀ c, ∑ j ∈ Finset.Ico a n, A c j * Vec.value (x :: known) (j - i) =
      ∑ j ∈ Finset.Ico a n, A c j * Vec.value known (j - (i + 1)) := by
    intro a ha c
    apply Finset.sum_congr rfl
    intro j hj
    have hsucc : j - i = j - (i + 1) + 1 := by
      have hj := (Finset.mem_Ico.1 hj).1
      omega
    rw [hsucc, Vec.value_cons_succ]
  intro a hia han
  rcases Nat.lt_or_eq_of_le hia with hia | rfl
  · rw [hshift a hia]
    exact h a hia han
  · rw [Finset.sum_eq_sum_Ico_succ_bot hi, hshift (i + 1) (Nat.lt_succ_self i), Nat.sub_self,
      Vec.value_cons_zero, hone, one_mul, hx, sub_add_cancel]

/-- A full solution of a triangular system. -/
theorem SolvesFrom.mulVec {A : ℕ → ℕ → ℚ} {n : ℕ} {x : Vec} (h : SolvesFrom A n 0 x)
    (hzero : ZeroBelow A n) :
    (Matrix.of fun i j : Fin n => A i j) *ᵥ x.toVector n = fun i : Fin n => A i n := by
  ext i
  have hsum := h i (Nat.zero_le i) i.isLt
  rw [← hsum, Finset.sum_Ico_eq_sub _ (Nat.le_of_lt i.isLt), Finset.sum_range]
  have hhead : ∑ j ∈ Finset.range i, A i j * Vec.value x (j - 0) = 0 := by
    apply Finset.sum_eq_zero
    intro j hj
    rw [hzero j ((Finset.mem_range.1 hj).trans i.isLt) i (Finset.mem_range.1 hj), zero_mul]
  rw [hhead, sub_zero]
  rfl

end ExactLinAlg
