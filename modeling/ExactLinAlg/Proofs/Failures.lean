import ExactLinAlg.Proofs.Determinant
import ExactLinAlg.Proofs.Inverse
import ExactLinAlg.Proofs.Rank
import ExactLinAlg.Proofs.SolveEchelon

/-!
# How elimination can fail

Apart from the shapes of the operands, elimination fails for two reasons only: a number does not fit
into a word, or a column that needs a pivot has none. In particular no position is out of range, no
dimensions disagree in a row operation, and nothing is divided by zero. The two operations on
fractions that elimination uses with no product or sum in them never fail: the negation of an entry,
and the reciprocal of a pivot, which is not zero (`Tableau.Fetches.exists_recip`).
-/

namespace ExactLinAlg

/-! ## Reciprocals of pivots -/

namespace Tableau

/-- The forward pass from `t` reaches column `col` with `row` pivots and moves one more into row
`row` of `u`. The reciprocal of this pivot is computed next. -/
def Fetches (t : Tableau) (col row : ℕ) (u : Tableau) : Prop :=
  ∃ s pivots swapped, ((List.range col).foldlM advance (t, [])).outcome = .ok (s, pivots) ∧
    pivots.length = row ∧ (s.fetchPivot col row).outcome = .ok (some (u, swapped))

/-- The elimination of unknowns from `t` reaches unknown `k` and moves its pivot into row `k` of
`u`. The reciprocal of this pivot is computed next. -/
def FetchesUnknown (t : Tableau) (k : ℕ) (u : Tableau) : Prop :=
  ∃ s swapped, ((List.range k).foldlM reduceUnknown t).outcome = .ok s ∧
    (s.fetchPivot k k).outcome = .ok (some (u, swapped))

variable {t u : Tableau}

/-- The elimination of unknowns is a forward pass as far as it goes. -/
theorem FetchesUnknown.fetches {k : ℕ} (h : t.FetchesUnknown k u) : t.Fetches k k u := by
  obtain ⟨s, swapped, hs, hfetch⟩ := h
  obtain ⟨_, hadvance, rfl⟩ := (reduceUnknowns_mirrors t k).of_ok hs
  exact ⟨s, List.range k, swapped, hadvance, List.length_range, hfetch⟩

/-- A pivot has a reciprocal. -/
theorem Fetches.exists_recip {r col row : ℕ} (h : t.Fetches col row u) (ht : t.WellFormed r)
    (hcol : col < t.main.cols) : ∃ x y, u.main.entry row col = .ok x ∧ x.recip = .ok y := by
  obtain ⟨s, pivots, swapped, hs, -, hfetch⟩ := h
  obtain ⟨hequiv, -⟩ := (ends_advance_range ht hcol.le).of_ok hs
  have hscol : col < s.main.cols := hequiv.cols ▸ hcol
  obtain ⟨hu, hraises⟩ := (ends_fetchPivot hequiv.wellFormed hscol row).of_ok hfetch
  have huwf := hu.wellFormed
  have hne := hraises.pivot_ne_zero
  have hrow : row < u.main.rows := huwf.rows.symm ▸ row_lt_of_pivot huwf hne
  obtain ⟨x, hx, hvalue⟩ :=
    (huwf.main.ends_entry (E := Error.Never) hrow (hu.cols ▸ hscol)).exists_ok
  obtain ⟨y, hy⟩ := Fraction.exists_recip (hvalue ▸ hne)
  exact ⟨x, y, hx, hy⟩

end Tableau

/-! ## The shapes of the operands -/

namespace Mat

variable {m : Mat}

theorem outcome_of_not_square {α : Type} (h : m.rows ≠ m.cols) (f : Unit → Traced α) :
    (liftM m.checkSquare >>= f : Traced α).outcome = .error (.notSquare m.rows m.cols) := by
  rw [Traced.outcome_bind]
  show (m.checkSquare >>= _) = _
  rw [checkSquare, if_neg h]
  rfl

theorem solve_of_length_ne (h : m.rows = m.cols) {b : Vec} (hb : m.rows ≠ b.length) :
    (m.solve b).outcome = .error (.dimensionMismatch m.rows b.length) := by
  have hsquare : m.checkSquare = .ok () := checkSquare_eq_ok_iff.2 h
  rw [solve, hsquare, checkDims, if_neg hb]
  rfl

/-! ## The failures -/

variable (hm : m.WellFormed)
include hm

theorem error_of_determinant {e : Error} (h : m.determinant.outcome = .error e) :
    m.rows ≠ m.cols ∧ e = .notSquare m.rows m.cols ∨ e = .overflow := by
  by_cases hsquare : m.rows = m.cols
  · exact Or.inr ((ends_determinant hm hsquare rfl).of_error h)
  · cases h.symm.trans (outcome_of_not_square hsquare _)
    exact Or.inl ⟨hsquare, rfl⟩

theorem error_of_inverse {e : Error} (h : m.inverse.outcome = .error e) :
    m.rows ≠ m.cols ∧ e = .notSquare m.rows m.cols ∨ e = .singular ∨ e = .overflow := by
  by_cases hsquare : m.rows = m.cols
  · rcases (ends_inverse hm hsquare rfl).of_error h with he | ⟨he, -⟩
    · exact Or.inr (Or.inr he)
    · exact Or.inr (Or.inl he)
  · cases h.symm.trans (outcome_of_not_square hsquare _)
    exact Or.inl ⟨hsquare, rfl⟩

theorem error_of_solve {b : Vec} {e : Error} (h : (m.solve b).outcome = .error e) :
    m.rows ≠ m.cols ∧ e = .notSquare m.rows m.cols ∨
      (m.rows = m.cols ∧ b.length ≠ m.rows) ∧ e = .dimensionMismatch m.rows b.length ∨
      e = .singular ∨ e = .overflow := by
  by_cases hsquare : m.rows = m.cols
  · by_cases hb : m.rows = b.length
    · rcases (ends_solve hm hsquare rfl (hb.symm.trans hsquare)).of_error h with he | ⟨he, -⟩
      · exact Or.inr (Or.inr (Or.inr he))
      · exact Or.inr (Or.inr (Or.inl he))
    · cases h.symm.trans (solve_of_length_ne hsquare hb)
      exact Or.inr (Or.inl ⟨⟨hsquare, Ne.symm hb⟩, rfl⟩)
  · cases h.symm.trans (outcome_of_not_square hsquare _)
    exact Or.inl ⟨hsquare, rfl⟩

/-- **How elimination can fail.** The echelon form and the rank fail only with an overflow. The
operations on square matrices also fail on all other shapes, and the inverse and the solution on
singular matrices; the solution fails with a mismatch of dimensions exactly if its right-hand side
does not fit a square matrix. On the way every negation succeeds, and so does every reciprocal of a
pivot: in the forward pass, with any companion, and in the elimination of unknowns. -/
theorem elimination_failures :
    (∀ full e, (m.gauss full).outcome = .error e → e = .overflow) ∧
    (∀ e, m.rank.outcome = .error e → e = .overflow) ∧
    (∀ e, m.determinant.outcome = .error e →
      m.rows ≠ m.cols ∧ e = .notSquare m.rows m.cols ∨ e = .overflow) ∧
    (∀ e, m.inverse.outcome = .error e →
      m.rows ≠ m.cols ∧ e = .notSquare m.rows m.cols ∨ e = .singular ∨ e = .overflow) ∧
    (∀ b e, (m.solve b).outcome = .error e →
      m.rows ≠ m.cols ∧ e = .notSquare m.rows m.cols ∨
        (m.rows = m.cols ∧ b.length ≠ m.rows) ∧ e = .dimensionMismatch m.rows b.length ∨
        e = .singular ∨ e = .overflow) ∧
    (m.rows ≠ m.cols → m.determinant.outcome = .error (.notSquare m.rows m.cols) ∧
      m.inverse.outcome = .error (.notSquare m.rows m.cols) ∧
      ∀ b, (m.solve b).outcome = .error (.notSquare m.rows m.cols)) ∧
    (∀ b, (∃ expected got, (m.solve b).outcome = .error (.dimensionMismatch expected got)) ↔
      m.rows = m.cols ∧ b.length ≠ m.rows) ∧
    (∀ x : Fraction, Word.neg x.num = .ok (-x).num) ∧
    (∀ (t u : Tableau) (col row : ℕ), t.main = m → t.WellFormed m.rows → col < m.cols →
      t.Fetches col row u → ∃ x y, u.main.entry row col = .ok x ∧ x.recip = .ok y) ∧
    ∀ (b : Vec) (p : Mat) (u : Tableau) (k : ℕ), m.hstack (ofColumn b) = .ok p → k < m.cols →
      Tableau.FetchesUnknown ⟨p, none⟩ k u →
      ∃ x y, u.main.entry k k = .ok x ∧ x.recip = .ok y := by
  refine ⟨?_, ?_, ?_, ?_, ?_, ?_, ?_, ?_, ?_, ?_⟩
  · intro full e h
    exact (ends_gauss hm full).of_error h
  · intro e h
    exact (ends_rank hm).of_error h
  · intro e h
    exact error_of_determinant hm h
  · intro e h
    exact error_of_inverse hm h
  · intro b e h
    exact error_of_solve hm h
  · intro h
    exact ⟨outcome_of_not_square h _, outcome_of_not_square h _, fun b => outcome_of_not_square h _⟩
  · intro b
    constructor
    · rintro ⟨expected, got, h⟩
      rcases error_of_solve hm h with ⟨-, he⟩ | ⟨hb, -⟩ | he | he
      · cases he
      · exact hb
      · cases he
      · cases he
    · rintro ⟨hsquare, hb⟩
      exact ⟨_, _, solve_of_length_ne hsquare (Ne.symm hb)⟩
  · exact Fraction.neg_num_eq_ok
  · rintro t u col row rfl ht hcol h
    exact h.exists_recip ht hcol
  · intro b p u k hp hk h
    obtain ⟨hrows, rfl⟩ := hstack_eq_ok_iff.1 hp
    have hwf := wellFormed_beside hm (wellFormed_ofColumn b) hrows
    exact h.fetches.exists_recip (tableau_wellFormed hwf) (Nat.lt_succ_of_lt hk)

omit hm in
/-- A matrix whose first pivot is fetched from its second row, and one with entries near the bounds
of a word. -/
theorem elimination_failures_two_by_two :
    let m : Mat := ⟨2, 2, [[0, 1], [1, 1]]⟩
    let u : Tableau := ⟨⟨2, 2, [[1, 1], [0, 1]]⟩, none⟩
    let x : Fraction := ⟨9223372036854775807, 1, Word.one_pos, by decide, by decide⟩
    let s : Mat := ⟨2, 2, [[1, x], [1, -x]]⟩
    m.WellFormed ∧ (m.solve [1]).outcome = .error (.dimensionMismatch 2 1) ∧
      (∃ expected got, (m.solve [1]).outcome = .error (.dimensionMismatch expected got)) ∧
      Tableau.Fetches ⟨m, none⟩ 0 0 u ∧
      (∃ y z, u.main.entry 0 0 = .ok y ∧ y.recip = .ok z) ∧
      s.WellFormed ∧ (s.gauss false).outcome = .error .overflow ∧
      ∀ e, (s.gauss false).outcome = .error e → e = .overflow := by
  intro m u x s
  have hm : m.WellFormed := ⟨rfl, by decide⟩
  have hs : s.WellFormed := ⟨rfl, by decide⟩
  have hsolve : (m.solve [1]).outcome = .error (.dimensionMismatch 2 1) := rfl
  have hfetch : Tableau.Fetches ⟨m, none⟩ 0 0 u := by
    refine ⟨⟨m, none⟩, [], true, rfl, rfl, ?_⟩
    decide +kernel
  have hoverflow : (s.gauss false).outcome = .error .overflow := by
    decide +kernel
  obtain ⟨-, -, -, -, -, -, hmismatch, -, hrecip, -⟩ := elimination_failures hm
  exact ⟨hm, hsolve, (hmismatch [1]).2 ⟨rfl, by decide⟩, hfetch,
    hrecip ⟨m, none⟩ u 0 0 rfl (tableau_wellFormed hm) Nat.two_pos hfetch, hs, hoverflow,
    (elimination_failures hs).1 false⟩

end Mat

end ExactLinAlg
