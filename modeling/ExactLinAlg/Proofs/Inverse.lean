import ExactLinAlg.Proofs.Echelon

/-!
# The inverse is two-sided, or the matrix is singular

Elimination on a square matrix `A` with the identity beside it ends with `P * A` beside `P`. The
reduced form `P * A` is the identity if every column has a pivot (`Staircase.eq_one`), and has a
zero row if not (`Staircase.det_eq_zero`).
-/

namespace ExactLinAlg

open Matrix

namespace Staircase

variable {A : ℕ → ℕ → ℚ} {n : ℕ} {pivots : List ℕ} (h : Staircase A n pivots)
include h

theorem det_eq_zero (hlen : pivots.length ≠ n) : (Matrix.of fun i j : Fin n => A i j).det = 0 := by
  have hlt : pivots.length < n := lt_of_le_of_ne h.length_le hlen
  apply det_eq_zero_of_row_eq_zero ⟨pivots.length, hlt⟩
  intro j
  exact h.rest pivots.length le_rfl j j.isLt

theorem eq_one (hclean : CleanFrom A pivots 0) (hlen : pivots.length = n) :
    (Matrix.of fun i j : Fin n => A i j) = 1 := by
  obtain rfl := h.eq_range hlen
  ext i j
  rw [of_apply, one_apply]
  rcases lt_trichotomy i j with hij | rfl | hij
  · have hj : (j : ℕ) < (List.range n).length := by
      rw [List.length_range]
      exact j.isLt
    have hzero := hclean j hj (Nat.zero_le j) i hij
    rw [List.getElem_range] at hzero
    rw [hzero, if_neg (ne_of_lt hij)]
  · rw [h.diagonal i.isLt, if_pos rfl]
  · rw [h.zeroBelow j j.isLt i hij, if_neg (ne_of_gt hij)]

end Staircase

namespace Mat

variable {m : Mat} {n : ℕ} (hm : m.WellFormed) (hrows : m.rows = n) (hcols : m.cols = n)
include hm hrows hcols

/-- The inverse of a square matrix is a left inverse, or the matrix is singular, or the computation
overflows. -/
theorem ends_inverse :
    Ends (Error.OfSquare m n)
      (fun b => b.WellFormed ∧ b.rows = n ∧ b.cols = n ∧ b.toMatrix n n * m.toMatrix n n = 1)
      m.inverse.outcome := by
  have ht := Tableau.wellFormed_some hm hrows (wellFormed_identity n) rfl
  rw [inverse, hcols]
  apply Traced.ends_bind (ends_checkSquare (hrows.trans hcols.symm))
  intro _ _
  apply Traced.ends_bind ((Tableau.ends_eliminate ht true).weaken fun _ he => Or.inl he)
  rintro ⟨u, pivots⟩ ⟨hequiv, hstairs, hclean⟩
  rw [hcols] at hstairs
  by_cases hlen : pivots.length = n
  · obtain ⟨P, -, hmain, hcomp⟩ := hequiv.exists_isUnit
    obtain ⟨main, companion⟩ := u
    cases hcomp with
    | some hk =>
      rename_i b
      have hb : b.toMatrix n n = P := by
        rw [hk.toMatrix n, toMatrix_identity, mul_one]
      simp only [if_neg (not_not.2 hlen)]
      refine ⟨hk.wellFormed, hk.rows, hk.cols, ?_⟩
      show b.toMatrix n n * m.toMatrix n n = 1
      rw [hb, ← hmain.toMatrix n]
      exact hstairs.eq_one (hclean rfl) hlen
  · simp only [if_pos hlen]
    exact Or.inr ⟨rfl, hequiv.det_eq_zero (hstairs.det_eq_zero hlen)⟩

/-- **The inverse.** What elimination gives for a square matrix is its two-sided inverse, and never
exists for a matrix with determinant zero. Elimination calls no other matrix singular, and fails
for no other reason than an overflow. -/
theorem inverse_exact :
    (∀ b, m.inverse.outcome = .ok b → b.WellFormed ∧ b.rows = n ∧ b.cols = n ∧
      m.toMatrix n n * b.toMatrix n n = 1 ∧ b.toMatrix n n * m.toMatrix n n = 1) ∧
    (m.inverse.outcome = .error .singular → (m.toMatrix n n).det = 0) ∧
    ((m.toMatrix n n).det = 0 → ∀ b, m.inverse.outcome ≠ .ok b) ∧
    ∀ e, m.inverse.outcome = .error e → e = .overflow ∨ e = .singular := by
  have hinv := ends_inverse hm hrows hcols
  refine ⟨?_, ?_, ?_, ?_⟩
  · intro b hb
    obtain ⟨hwf, hbrows, hbcols, hleft⟩ := hinv.of_ok hb
    exact ⟨hwf, hbrows, hbcols, mul_eq_one_comm.1 hleft, hleft⟩
  · intro h
    rcases hinv.of_error h with he | ⟨-, hdet⟩
    · exact absurd he (by decide)
    · exact hdet
  · intro hdet b hb
    obtain ⟨-, -, -, hleft⟩ := hinv.of_ok hb
    have hone := congrArg det hleft
    rw [det_mul, hdet, mul_zero, det_one] at hone
    exact zero_ne_one hone
  · intro e he
    exact (hinv.of_error he).imp_right And.left

omit hm hrows hcols in
/-- A matrix that needs an exchange of rows, and a singular one. -/
theorem inverse_exact_two_by_two :
    let m : Mat := ⟨2, 2, [[0, 1], [1, 1]]⟩
    let b : Mat := ⟨2, 2, [[-1, 1], [1, 0]]⟩
    let s : Mat := ⟨2, 2, [[1, 1], [1, 1]]⟩
    m.WellFormed ∧ m.inverse.outcome = .ok b ∧ m.toMatrix 2 2 * b.toMatrix 2 2 = 1 ∧
      b.toMatrix 2 2 * m.toMatrix 2 2 = 1 ∧
      s.WellFormed ∧ s.inverse.outcome = .error .singular ∧ (s.toMatrix 2 2).det = 0 := by
  intro m b s
  have hm : m.WellFormed := ⟨rfl, by decide⟩
  have hs : s.WellFormed := ⟨rfl, by decide⟩
  have hb : m.inverse.outcome = .ok b := by
    show (inverse ⟨2, 2, [[0, 1], [1, 1]]⟩).outcome = _
    decide +kernel
  have hsingular : s.inverse.outcome = .error .singular := by
    show (inverse ⟨2, 2, [[1, 1], [1, 1]]⟩).outcome = _
    decide +kernel
  obtain ⟨-, -, -, hright, hleft⟩ := (inverse_exact hm rfl rfl).1 b hb
  exact ⟨hm, hb, hright, hleft, hs, hsingular, (inverse_exact hs rfl rfl).2.1 hsingular⟩

end Mat

end ExactLinAlg
