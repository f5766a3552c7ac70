import ExactLinAlg.Proofs.Echelon

/-!
# The rank is exact

The pivots of an echelon form are its leading entries (`Staircase.isPivotedBy`), so there are as
many as its rank. Row operations keep the rank, as they keep the space that the rows span.
-/

namespace ExactLinAlg

open Matrix

/-! ## Leading entries -/

namespace Staircase

variable {A : ℕ → ℕ → ℚ} {c : ℕ} {pivots : List ℕ}

/-- The column of pivot `s`. -/
def column (h : Staircase A c pivots) (s : Fin pivots.length) : Fin c :=
  ⟨pivots[s], h.lt _ (List.getElem_mem s.isLt)⟩

/-- The column of the pivot of row `i`, or the top element for a row without a pivot. -/
def leading (h : Staircase A c pivots) (i : ℕ) : WithTop (Fin c) :=
  if hi : i < pivots.length then (h.column ⟨i, hi⟩ : WithTop (Fin c)) else ⊤

variable (h : Staircase A c pivots)
include h

theorem leading_ne_top_iff {i : ℕ} : h.leading i ≠ ⊤ ↔ i < pivots.length := by
  unfold leading
  split <;> simp_all

theorem isPivotedBy (r : ℕ) :
    (Matrix.of fun (i : Fin r) (j : Fin c) => A i j).IsPivotedBy fun i => h.leading i := by
  constructor
  · intro i₁ i₂ hi j hzero
    rcases Nat.lt_or_ge i₁ pivots.length with hi₁ | hi₁
    · have hle : j ≤ pivots[i₁] := by
        by_contra hlt
        have hone := hzero (h.column ⟨i₁, hi₁⟩) (Nat.not_le.1 hlt)
        exact one_ne_zero ((h.pivot i₁ hi₁).symm.trans hone)
      rcases Nat.lt_or_ge i₂ pivots.length with hi₂ | hi₂
      · exact h.before i₂ hi₂ j (hle.trans_lt (h.getElem_lt hi₁ hi₂ hi))
      · exact h.rest i₂ hi₂ j j.isLt
    · exact h.rest i₂ (hi₁.trans (Nat.le_of_lt hi)) j j.isLt
  · intro i
    rcases Nat.lt_or_ge i pivots.length with hi | hi
    · simp only [leading, dif_pos hi, WithTop.coe_lt_coe, WithTop.coe_inj, forall_eq']
      have hone : A i (h.column ⟨i, hi⟩) = 1 := h.pivot i hi
      refine ⟨fun j hj => h.before i hi j hj, ?_⟩
      rw [of_apply, hone]
      exact one_ne_zero
    · simp only [leading, dif_neg (Nat.not_lt.2 hi)]
      exact ⟨fun j _ => h.rest i hi j j.isLt, fun j hj => absurd hj (WithTop.top_ne_coe)⟩

theorem rank_eq {r : ℕ} (hr : pivots.length ≤ r) :
    (Matrix.of fun (i : Fin r) (j : Fin c) => A i j).rank = pivots.length := by
  rw [(h.isPivotedBy r).rank_eq]
  simp only [h.leading_ne_top_iff]
  rw [Fin.card_filter_val_lt, Nat.min_eq_right hr]

omit h in
/-- There are no more pivots than rows. -/
theorem length_le_rows {m : Mat} (hm : m.WellFormed) (h : Staircase m.value c pivots) :
    pivots.length ≤ m.rows := by
  by_contra hlt
  have hone := h.pivot m.rows (Nat.not_le.1 hlt)
  rw [hm.value_of_rows_le le_rfl] at hone
  exact zero_ne_one hone

end Staircase

/-! ## The number of pivots -/

/-- Among the rows of a matrix are as many independent ones as the dimension of the space that the
rows span. -/
theorem exists_independent_rows {r c : ℕ} (M : Matrix (Fin r) (Fin c) ℚ) :
    ∃ rows : Fin (Module.finrank ℚ (Submodule.span ℚ (Set.range M.row))) ↪ Fin r,
      LinearIndependent ℚ (fun a => M.row (rows a)) ∧
        ∀ i, M.row i ∈ Submodule.span ℚ (Set.range fun a => M.row (rows a)) := by
  obtain ⟨f, hmem, hspan, hindep⟩ :=
    Submodule.exists_fun_fin_finrank_span_eq ℚ (Set.range M.row)
  choose rows hrows using hmem
  obtain rfl : (fun a => M.row (rows a)) = f := funext hrows
  have hinj : Function.Injective rows := by
    intro a b hab
    exact hindep.injective (congrArg M.row hab)
  refine ⟨⟨rows, hinj⟩, hindep, ?_⟩
  intro i
  show M.row i ∈ Submodule.span ℚ (Set.range fun a => M.row (rows a))
  rw [hspan]
  exact Submodule.subset_span (Set.mem_range_self i)

namespace Mat

theorem ends_rank {m : Mat} (hm : m.WellFormed) :
    Ends Error.IsOverflow (fun k => k = (m.toMatrix m.rows m.cols).rank) m.rank.outcome := by
  apply Traced.ends_bind (ends_gauss hm false)
  rintro ⟨pivots, n⟩ ⟨hequiv, hstairs, -⟩
  have hn := hequiv.wellFormed
  obtain ⟨P, hunit, hprod, -⟩ := hequiv.exists_isUnit
  have hle : pivots.length ≤ m.rows := hn.rows ▸ hstairs.length_le_rows hn.main
  apply Ends.pure
  calc pivots.length
      = (n.toMatrix m.rows m.cols).rank := (hstairs.rank_eq hle).symm
    _ = (P * m.toMatrix m.rows m.cols).rank := by rw [hprod.toMatrix m.cols]
    _ = (m.toMatrix m.rows m.cols).rank :=
      rank_mul_eq_right_of_isUnit_det P _ ((isUnit_iff_isUnit_det P).1 hunit)

/-- **The rank.** What elimination gives as the rank of a matrix is the dimension of the space that
its rows span: so many of the rows are independent, and every row is a combination of them. It is at
most the number of rows and the number of columns, and the same for the transposed matrix. -/
theorem rank_exact {m : Mat} (hm : m.WellFormed) {k : ℕ} (hk : m.rank.outcome = .ok k) :
    k = Module.finrank ℚ (Submodule.span ℚ (Set.range (m.toMatrix m.rows m.cols).row)) ∧
    (∃ rows : Fin k ↪ Fin m.rows,
      LinearIndependent ℚ (fun a => (m.toMatrix m.rows m.cols).row (rows a)) ∧
      ∀ i, (m.toMatrix m.rows m.cols).row i ∈
        Submodule.span ℚ (Set.range fun a => (m.toMatrix m.rows m.cols).row (rows a))) ∧
    k ≤ min m.rows m.cols ∧
    ∀ l, m.transposed.rank.outcome = .ok l → l = k := by
  have hrank := (ends_rank hm).of_ok hk
  have hdim := hrank.trans (rank_eq_finrank_span_row _)
  refine ⟨hdim, ?_, ?_, ?_⟩
  · rw [hdim]
    exact exists_independent_rows _
  · rw [hrank]
    exact le_min (rank_le_height _) (rank_le_width _)
  · intro l hl
    have htrans := wellFormed_transposed m hm.length_data
    calc l
        = (m.transposed.toMatrix m.cols m.rows).rank := (ends_rank htrans).of_ok hl
      _ = (m.toMatrix m.rows m.cols)ᵀ.rank := by rw [toMatrix_transposed hm]
      _ = (m.toMatrix m.rows m.cols).rank := rank_transpose _
      _ = k := hrank.symm

/-- The first and the third column have no pivot, and the third row is a difference of the
others. -/
theorem rank_exact_of_gaps :
    let m : Mat := ⟨3, 4, [[0, 0, 0, 1], [0, 1, 1, 1], [0, 1, 1, 0]]⟩
    m.WellFormed ∧ m.rank.outcome = .ok 2 ∧
      Module.finrank ℚ (Submodule.span ℚ (Set.range (m.toMatrix 3 4).row)) = 2 ∧
      (∃ rows : Fin 2 ↪ Fin 3, LinearIndependent ℚ (fun a => (m.toMatrix 3 4).row (rows a))) ∧
      ∀ l, m.transposed.rank.outcome = .ok l → l = 2 := by
  intro m
  have hm : m.WellFormed := ⟨rfl, by decide⟩
  have hk : m.rank.outcome = .ok 2 := by
    show (rank ⟨3, 4, [[0, 0, 0, 1], [0, 1, 1, 1], [0, 1, 1, 0]]⟩).outcome = _
    decide +kernel
  obtain ⟨hdim, ⟨rows, hindep, -⟩, -, htransposed⟩ := rank_exact hm hk
  exact ⟨hm, hk, hdim.symm, ⟨rows, hindep⟩, htransposed⟩

end Mat

end ExactLinAlg
