import ExactLinAlg.Elimination.Gauss
import ExactLinAlg.Proofs.Tableau
import ExactLinAlg.Proofs.Triangular

/-!
# Echelon forms

The forward pass builds a staircase of pivots column by column (`Staircase.skip`,
`Staircase.extend`), and the upward pass clears the entries above the pivots from the last one on
(`CleanFrom`). Both keep the tableau row equivalent to the first one, so the rows of the echelon
form span what the rows of the matrix span (`gauss_echelon`).
-/

namespace ExactLinAlg

open Matrix

/-! ## Staircases -/

/-- The first `k` columns of `A` are in echelon form, with ones at the pivots. Pivot `i` stands in
row `i` and column `pivots[i]`. -/
structure Staircase (A : ℕ → ℕ → ℚ) (k : ℕ) (pivots : List ℕ) : Prop where
  increasing : pivots.Pairwise (· < ·)
  lt : ∀ p ∈ pivots, p < k
  pivot : ∀ i (hi : i < pivots.length), A i pivots[i] = 1
  before : ∀ i (hi : i < pivots.length), ∀ j, j < pivots[i] → A i j = 0
  rest : ∀ i, pivots.length ≤ i → ∀ j, j < k → A i j = 0

/-- The pivots with numbers from `i` on are the only entries of their columns not below them. -/
def CleanFrom (A : ℕ → ℕ → ℚ) (pivots : List ℕ) (i : ℕ) : Prop :=
  ∀ s (hs : s < pivots.length), i ≤ s → ∀ a, a < s → A a pivots[s] = 0

namespace Staircase

variable {A B : ℕ → ℕ → ℚ} {k : ℕ} {pivots : List ℕ} (h : Staircase A k pivots)

theorem nil (A : ℕ → ℕ → ℚ) : Staircase A 0 [] where
  increasing := List.Pairwise.nil
  lt _ hp := absurd hp List.not_mem_nil
  pivot i hi := absurd hi (Nat.not_lt_zero i)
  before i hi := absurd hi (Nat.not_lt_zero i)
  rest _ _ j hj := absurd hj (Nat.not_lt_zero j)

include h

theorem getElem_lt {i s : ℕ} (hi : i < pivots.length) (hs : s < pivots.length) (his : i < s) :
    pivots[i] < pivots[s] :=
  List.pairwise_iff_getElem.1 h.increasing i s hi hs his

theorem below {s i : ℕ} (hs : s < pivots.length) (hsi : s < i) : A i pivots[s] = 0 := by
  rcases Nat.lt_or_ge i pivots.length with hi | hi
  · exact h.before i hi _ (h.getElem_lt hs hi hsi)
  · exact h.rest i hi _ (h.lt _ (List.getElem_mem hs))

theorem subperm_range : pivots.Subperm (List.range k) := by
  apply List.subperm_of_subset (h.increasing.imp ne_of_lt)
  intro p hp
  exact List.mem_range.2 (h.lt p hp)

theorem length_le : pivots.length ≤ k := by
  have hle := h.subperm_range.length_le
  rwa [List.length_range] at hle

/-- Every column has a pivot if there are as many. -/
theorem eq_range (hlen : pivots.length = k) : pivots = List.range k := by
  have hperm := h.subperm_range.perm_of_length_le (by rw [List.length_range, hlen])
  exact hperm.eq_of_pairwise' h.increasing (List.pairwise_lt_range)

/-- A column without a pivot. -/
theorem skip (hzero : ∀ i, pivots.length ≤ i → A i k = 0) : Staircase A (k + 1) pivots where
  increasing := h.increasing
  lt p hp := Nat.lt_succ_of_lt (h.lt p hp)
  pivot := h.pivot
  before := h.before
  rest i hi j hj := by
    rcases Nat.lt_succ_iff_lt_or_eq.1 hj with hj | rfl
    · exact h.rest i hi j hj
    · exact hzero i hi

/-- A column with a pivot. -/
theorem extend (hB : Tableau.Reduces A B k pivots.length) :
    Staircase B (k + 1) (pivots ++ [k]) := by
  have hlen : (pivots ++ [k]).length = pivots.length + 1 := List.length_append
  have hzero : ∀ i, pivots.length ≤ i → ∀ j, j < k → B i j = 0 := by
    intro i hi j hj
    exact hB.zero j (fun a ha => h.rest a ha j hj) i hi
  constructor
  · apply List.pairwise_append.2
    refine ⟨h.increasing, List.pairwise_singleton _ _, ?_⟩
    intro a ha b hb
    rw [List.mem_singleton.1 hb]
    exact h.lt a ha
  · intro p hp
    rcases List.mem_append.1 hp with hp | hp
    · exact Nat.lt_succ_of_lt (h.lt p hp)
    · rw [List.mem_singleton.1 hp]
      exact Nat.lt_succ_self k
  · intro i hi
    rcases Nat.lt_or_ge i pivots.length with hlt | hge
    · rw [List.getElem_append_left hlt, hB.above i hlt]
      exact h.pivot i hlt
    · obtain rfl : i = pivots.length := by omega
      rw [List.getElem_concat_length rfl]
      exact hB.pivot
  · intro i hi j hj
    rcases Nat.lt_or_ge i pivots.length with hlt | hge
    · rw [List.getElem_append_left hlt] at hj
      rw [hB.above i hlt]
      exact h.before i hlt j hj
    · obtain rfl : i = pivots.length := by omega
      rw [List.getElem_concat_length rfl] at hj
      exact hzero pivots.length le_rfl j hj
  · intro i hi j hj
    rw [hlen] at hi
    rcases Nat.lt_succ_iff_lt_or_eq.1 hj with hj | rfl
    · exact hzero i (Nat.le_of_succ_le hi) j hj
    · exact hB.below i hi

section Clears

variable {i : ℕ} (hi : i < pivots.length) (hB : Tableau.Clears A B pivots[i] i (· < i))
include hB

/-- Clearing above a pivot keeps the staircase, for its row is zero before the pivot. -/
theorem clearAbove : Staircase B k pivots := by
  have hkeep : ∀ s (hs : s < pivots.length) j, j ≤ pivots[s] → B s j = A s j := by
    intro s hs j hj
    rcases Nat.lt_or_ge s i with hsi | hsi
    · exact hB.keep (h.before i hi j (hj.trans_lt (h.getElem_lt hs hi hsi))) s
    · rw [hB.other s (Nat.not_lt.2 hsi)]
  refine ⟨h.increasing, h.lt, ?_, ?_, ?_⟩
  · intro s hs
    rw [hkeep s hs _ le_rfl]
    exact h.pivot s hs
  · intro s hs j hj
    rw [hkeep s hs j (Nat.le_of_lt hj)]
    exact h.before s hs j hj
  · intro a ha j hj
    rw [hB.other a (by omega)]
    exact h.rest a ha j hj

/-- Clearing above a pivot keeps what is clear above later pivots, for its row is zero there. -/
theorem cleanFrom (hclean : CleanFrom A pivots (i + 1)) : CleanFrom B pivots i := by
  intro s hs his a ha
  rcases Nat.lt_or_eq_of_le his with his | rfl
  · rw [hB.keep (hclean s hs his i his)]
    exact hclean s hs his a ha
  · apply hB.eq_zero _ ha
    rw [h.pivot i hi]
    exact one_ne_zero

end Clears

end Staircase

/-! ## A pivot in every column -/

namespace Staircase

variable {A : ℕ → ℕ → ℚ} {k : ℕ} (h : Staircase A k (List.range k))
include h

theorem zeroBelow : ZeroBelow A k := by
  intro j hj i hij
  have hlen : j < (List.range k).length := by rwa [List.length_range]
  have hzero := h.below hlen hij
  rwa [List.getElem_range] at hzero

theorem diagonal {i : ℕ} (hi : i < k) : A i i = 1 := by
  have hlen : i < (List.range k).length := by rwa [List.length_range]
  have hone := h.pivot i hlen
  rwa [List.getElem_range] at hone

theorem det_eq_one : (Matrix.of fun i j : Fin k => A i j).det = 1 := by
  rw [h.zeroBelow.det]
  exact Finset.prod_eq_one fun i hi => h.diagonal (Finset.mem_range.1 hi)

end Staircase

/-! ## The two passes -/

/-- The failures of an operation that needs the first `n` rows and columns of a matrix to be
regular. -/
def Error.OfSquare (m : Mat) (n : ℕ) (e : Error) : Prop :=
  e = .overflow ∨ e = .singular ∧ (m.toMatrix n n).det = 0

namespace Tableau

variable {r : ℕ} {t : Tableau} (ht : t.WellFormed r)

include ht in
/-- One column of the forward pass. -/
theorem ends_advance {k : ℕ} (hk : k < t.main.cols) {pivots : List ℕ}
    (h : Staircase t.main.value k pivots) :
    Ends Error.IsOverflow
      (fun s => RowEquiv r t s.1 ∧ Staircase s.1.main.value (k + 1) s.2)
      (advance (t, pivots) k).outcome := by
  apply Traced.ends_bind (ends_reduceColumn ht hk pivots.length)
  intro o ho
  cases o with
  | none => exact ⟨RowEquiv.refl ht, h.skip ho⟩
  | some u =>
    obtain ⟨hu, hreduces⟩ := ho
    exact ⟨hu, h.extend hreduces⟩

include ht in
/-- The forward pass over the first columns. -/
theorem ends_advance_range {c : ℕ} (hc : c ≤ t.main.cols) :
    Ends Error.IsOverflow
      (fun s => RowEquiv r t s.1 ∧ Staircase s.1.main.value c s.2)
      ((List.range c).foldlM advance (t, [])).outcome := by
  apply Traced.ends_foldlM_range
    (I := fun k (s : Tableau × List ℕ) => RowEquiv r t s.1 ∧ Staircase s.1.main.value k s.2)
  · exact ⟨RowEquiv.refl ht, Staircase.nil _⟩
  · intro k hk s hs
    obtain ⟨u, pivots⟩ := s
    obtain ⟨hu, hstairs⟩ := hs
    have hku : k < u.main.cols := hu.cols ▸ hk.trans_le hc
    apply (ends_advance hu.wellFormed hku hstairs).imp
    intro s hs
    exact ⟨hu.trans hs.1, hs.2⟩

include ht in
theorem ends_forward :
    Ends Error.IsOverflow
      (fun s => RowEquiv r t s.1 ∧ Staircase s.1.main.value t.main.cols s.2) t.forward.outcome :=
  ends_advance_range ht le_rfl

include ht in
/-- The upward pass. The loop runs from the last pivot to the first, so its invariant says that the
pivots from the current one on stand alone in their columns. -/
theorem ends_upward {pivots : List ℕ} (h : Staircase t.main.value t.main.cols pivots) :
    Ends Error.IsOverflow
      (fun u => RowEquiv r t u ∧ Staircase u.main.value t.main.cols pivots ∧
        CleanFrom u.main.value pivots 0)
      (t.upward pivots).outcome := by
  rw [upward, Traced.outcome_foldlM, List.foldlM_reverse]
  apply Ends.foldrM (I := fun i u => RowEquiv r t u ∧ Staircase u.main.value t.main.cols pivots ∧
    CleanFrom u.main.value pivots i)
  · refine ⟨RowEquiv.refl ht, h, ?_⟩
    intro s hs hle
    rw [List.length_zipIdx] at hle
    exact absurd hs (Nat.not_lt.2 hle)
  · intro i hi u hu
    obtain ⟨hu, hstairs, hclean⟩ := hu
    rw [List.length_zipIdx] at hi
    rw [List.getElem_zipIdx, Nat.zero_add]
    have hone := hstairs.pivot i hi
    have hcol : pivots[i] < u.main.cols := by
      rw [hu.cols]
      exact hstairs.lt _ (List.getElem_mem hi)
    apply (ends_clearAbove hu.wellFormed hcol (hone ▸ one_ne_zero) (hone ▸ cancels_opposite)).imp
    intro v hv
    obtain ⟨hv, hclears⟩ := hv
    exact ⟨hu.trans (hv.rowEquiv one_ne_zero), hstairs.clearAbove hi hclears,
      hstairs.cleanFrom hi hclears hclean⟩

include ht in
/-- **Elimination** gives a row equivalent tableau in echelon form, the reduced one if asked. -/
theorem ends_eliminate (full : Bool) :
    Ends Error.IsOverflow
      (fun s => RowEquiv r t s.1 ∧ Staircase s.1.main.value t.main.cols s.2 ∧
        (full = true → CleanFrom s.1.main.value s.2 0))
      (t.eliminate full).outcome := by
  apply Traced.ends_bind (ends_forward ht)
  rintro ⟨u, pivots⟩ ⟨hu, hstairs⟩
  cases full with
  | false => exact ⟨hu, hstairs, fun h => absurd h Bool.false_ne_true⟩
  | true =>
    rw [← hu.cols] at hstairs ⊢
    apply Traced.ends_bind (ends_upward hu.wellFormed hstairs)
    intro v hv
    exact ⟨hu.trans hv.1, hv.2.1, fun _ => hv.2.2⟩

end Tableau

/-! ## The echelon form of a matrix -/

theorem span_row_mul {r c : ℕ} {P : Matrix (Fin r) (Fin r) ℚ} (hP : IsUnit P)
    (M : Matrix (Fin r) (Fin c) ℚ) :
    Submodule.span ℚ (Set.range (P * M).row) = Submodule.span ℚ (Set.range M.row) := by
  have hcomp : (P * M).vecMulLinear = M.vecMulLinear ∘ₗ P.vecMulLinear := by
    ext v
    simp only [LinearMap.comp_apply, vecMulLinear_apply, vecMul_vecMul]
  have hrange : LinearMap.range P.vecMulLinear = ⊤ :=
    LinearMap.range_eq_top.2 (vecMul_surjective_iff_isUnit.2 hP)
  rw [← range_vecMulLinear, ← range_vecMulLinear, hcomp,
    LinearMap.range_comp_of_range_eq_top _ hrange]

namespace Mat

variable {m : Mat} (hm : m.WellFormed)
include hm

theorem tableau_wellFormed : Tableau.WellFormed m.rows ⟨m, none⟩ :=
  ⟨hm, rfl, fun _ h => nomatch h⟩

theorem ends_gauss (full : Bool) :
    Ends Error.IsOverflow
      (fun s => Tableau.RowEquiv m.rows ⟨m, none⟩ ⟨s.2, none⟩ ∧ Staircase s.2.value m.cols s.1 ∧
        (full = true → CleanFrom s.2.value s.1 0))
      (m.gauss full).outcome := by
  apply Traced.ends_bind (Tableau.ends_eliminate (tableau_wellFormed hm) full)
  rintro ⟨u, pivots⟩ ⟨hu, hstairs, hclean⟩
  refine ⟨?_, hstairs, hclean⟩
  obtain ⟨d, hd, P, hP, hmain, -⟩ := hu
  exact ⟨d, hd, P, hP, hmain, Option.Rel.none⟩

/-- **The echelon form.** Elimination gives a matrix of the same dimensions in echelon form, with
the columns of its pivots in increasing order, and clears the entries above the pivots if asked. The
matrix is the product of an invertible matrix and the given one, so its rows span the same space. -/
theorem gauss_echelon {full : Bool} {pivots : List ℕ} {n : Mat}
    (h : (m.gauss full).outcome = .ok (pivots, n)) :
    n.WellFormed ∧ n.rows = m.rows ∧ n.cols = m.cols ∧
    pivots.Pairwise (· < ·) ∧ (∀ p ∈ pivots, p < m.cols) ∧
    (∀ t (ht : t < pivots.length), t < m.rows ∧ n.value t pivots[t] = 1 ∧
      ∀ j, j < pivots[t] → n.value t j = 0) ∧
    (∀ t, pivots.length ≤ t → ∀ j, n.value t j = 0) ∧
    (∀ t (ht : t < pivots.length), ∀ i, t < i → n.value i pivots[t] = 0) ∧
    (full = true → ∀ t (ht : t < pivots.length), ∀ i, i < t → n.value i pivots[t] = 0) ∧
    (∃ P : Matrix (Fin m.rows) (Fin m.rows) ℚ, IsUnit P ∧
      n.toMatrix m.rows m.cols = P * m.toMatrix m.rows m.cols) ∧
    Submodule.span ℚ (Set.range (n.toMatrix m.rows m.cols).row) =
      Submodule.span ℚ (Set.range (m.toMatrix m.rows m.cols).row) := by
  obtain ⟨hequiv, hstairs, hclean⟩ := (ends_gauss hm full).of_ok h
  have hn := hequiv.wellFormed
  obtain ⟨P, hunit, hprod, -⟩ := hequiv.exists_isUnit
  refine ⟨hn.main, hn.rows, hprod.cols, hstairs.increasing, hstairs.lt, ?_, ?_, ?_, ?_, ?_, ?_⟩
  · intro t ht
    have hone := hstairs.pivot t ht
    refine ⟨?_, hone, hstairs.before t ht⟩
    exact Tableau.row_lt_of_pivot hn (hone ▸ one_ne_zero)
  · intro t ht j
    rcases Nat.lt_or_ge j m.cols with hj | hj
    · exact hstairs.rest t ht j hj
    · exact hn.main.value_of_cols_le t (hprod.cols.trans_le hj)
  · intro t ht i hi
    exact hstairs.below ht hi
  · intro hfull t ht i hi
    exact hclean hfull t ht (Nat.zero_le t) i hi
  · exact ⟨P, hunit, hprod.toMatrix m.cols⟩
  · rw [hprod.toMatrix m.cols, span_row_mul hunit]

omit hm in
/-- The first and the third column have no pivot, and the third row becomes zero. -/
theorem gauss_echelon_of_gaps :
    let m : Mat := ⟨3, 4, [[0, 0, 0, 1], [0, 1, 1, 1], [0, 1, 1, 0]]⟩
    let n : Mat := ⟨3, 4, [[0, 1, 1, 0], [0, 0, 0, 1], [0, 0, 0, 0]]⟩
    m.WellFormed ∧ (m.gauss true).outcome = .ok ([1, 3], n) ∧ n.value 1 3 = 1 ∧ n.value 0 3 = 0 ∧
      (∀ j, n.value 2 j = 0) ∧ Submodule.span ℚ (Set.range (n.toMatrix 3 4).row) =
        Submodule.span ℚ (Set.range (m.toMatrix 3 4).row) := by
  intro m n
  have hm : m.WellFormed := ⟨rfl, by decide⟩
  have hrun : (m.gauss true).outcome = .ok ([1, 3], n) := by
    show (gauss ⟨3, 4, [[0, 0, 0, 1], [0, 1, 1, 1], [0, 1, 1, 0]]⟩ true).outcome = _
    decide +kernel
  obtain ⟨-, -, -, -, -, hrow, hrest, -, habove, -, hspan⟩ := gauss_echelon hm hrun
  exact ⟨hm, hrun, (hrow 1 Nat.one_lt_two).2.1, habove rfl 1 Nat.one_lt_two 0 Nat.zero_lt_one,
    hrest 2 le_rfl, hspan⟩

end Mat

end ExactLinAlg
