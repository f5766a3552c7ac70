import ExactLinAlg.Proofs.Rank

/-!
# The reduced form is canonical

The reduced form of a matrix depends on the space that its rows span and on nothing else. In this
space a vector is determined by its entries in the columns of the pivots (`Staircase.eq_sum`), and
these columns are those where a vector of the space can begin (`Staircase.mem_pivots_iff`). So the
pivots, and then the rows, can be read off the space. Elementary row operations keep the space
(`RowOp.rowSpace_of_applies`), whatever they do to numerators and denominators on the way.
-/

namespace ExactLinAlg

open Matrix

/-- The space that the first `r` rows of `A` span, cut off after `c` columns. -/
def rowSpace (A : ℕ → ℕ → ℚ) (r c : ℕ) : Submodule ℚ (Fin c → ℚ) :=
  Submodule.span ℚ (Set.range (Matrix.of fun (i : Fin r) (j : Fin c) => A i j).row)

theorem row_mem_rowSpace (A : ℕ → ℕ → ℚ) {r i : ℕ} (hi : i < r) (c : ℕ) :
    (fun j : Fin c => A i j) ∈ rowSpace A r c :=
  Submodule.subset_span ⟨⟨i, hi⟩, rfl⟩

/-! ## Uniqueness of the reduced form -/

namespace Staircase

section Reduced

variable {A : ℕ → ℕ → ℚ} {r c : ℕ} {pivots : List ℕ} (h : Staircase A c pivots)
  (hclean : CleanFrom A pivots 0)
include h hclean

/-- The columns of the pivots are unit vectors. -/
theorem entry_pivot {i s : ℕ} (hs : s < pivots.length) :
    A i pivots[s] = if i = s then 1 else 0 := by
  rcases Nat.lt_trichotomy i s with his | rfl | his
  · rw [hclean s hs (Nat.zero_le s) i his, if_neg (Nat.ne_of_lt his)]
  · rw [h.pivot i hs, if_pos rfl]
  · rw [h.below hs his, if_neg (Nat.ne_of_gt his)]

/-- The coordinates of a vector of the row space are its entries in the columns of the pivots. -/
theorem eq_sum {v : Fin c → ℚ} (hv : v ∈ rowSpace A r c) (j : Fin c) :
    v j = ∑ s : Fin pivots.length, v (h.column s) * A s j := by
  induction hv using Submodule.span_induction with
  | mem v hv =>
    obtain ⟨i, rfl⟩ := hv
    have hentry : ∀ s : Fin pivots.length, A i (h.column s) = if (i : ℕ) = s then 1 else 0 :=
      fun s => h.entry_pivot hclean s.isLt
    simp only [row_apply, of_apply, hentry]
    rcases Nat.lt_or_ge i pivots.length with hi | hi
    · exact (RowOp.sum_unit_mul hi fun s => A s j).symm
    · rw [h.rest i hi j j.isLt, Finset.sum_eq_zero]
      intro s _
      rw [if_neg (by omega), zero_mul]
  | zero => simp
  | add v w _ _ hv hw => simp only [Pi.add_apply, add_mul, Finset.sum_add_distrib, ← hv, ← hw]
  | smul a v _ hv =>
    simp only [Pi.smul_apply, smul_eq_mul, mul_assoc, ← Finset.mul_sum, ← hv]

/-- The pivots stand in the columns where vectors of the row space begin. -/
theorem mem_pivots_iff (hr : pivots.length ≤ r) {j : Fin c} :
    (j : ℕ) ∈ pivots ↔ ∃ v ∈ rowSpace A r c, v j ≠ 0 ∧ ∀ k, k < j → v k = 0 := by
  constructor
  · intro hj
    obtain ⟨s, hs, hsj⟩ := List.getElem_of_mem hj
    refine ⟨_, row_mem_rowSpace A (hs.trans_le hr) c, ?_, ?_⟩
    · rw [← hsj, h.pivot s hs]
      exact one_ne_zero
    · intro k hk
      apply h.before s hs
      rw [hsj]
      exact hk
  · rintro ⟨v, hv, hne, hzero⟩
    by_contra hj
    apply hne
    rw [h.eq_sum hclean hv j, Finset.sum_eq_zero]
    intro s _
    -- a pivot before column `j` has the coordinate zero, and a row with a later pivot a zero there
    rcases Nat.lt_trichotomy pivots[s] j with hlt | heq | hgt
    · rw [hzero (h.column s) hlt, zero_mul]
    · exact absurd (heq ▸ List.getElem_mem s.isLt) hj
    · rw [h.before s s.isLt j hgt, mul_zero]

end Reduced

/-- Reduced forms whose rows span the same space are the same. -/
theorem unique {A B : ℕ → ℕ → ℚ} {r c : ℕ} {p q : List ℕ} (hA : Staircase A c p)
    (hA0 : CleanFrom A p 0) (hpr : p.length ≤ r) (hB : Staircase B c q) (hB0 : CleanFrom B q 0)
    (hqr : q.length ≤ r) (hspace : rowSpace A r c = rowSpace B r c) :
    p = q ∧ ∀ i j, j < c → A i j = B i j := by
  have hpq : p = q := by
    apply hA.increasing.eq_of_mem_iff hB.increasing
    intro j
    by_cases hj : j < c
    · rw [hA.mem_pivots_iff hA0 hpr (j := ⟨j, hj⟩), hspace,
        hB.mem_pivots_iff hB0 hqr (j := ⟨j, hj⟩)]
    · exact ⟨fun h => absurd (hA.lt j h) hj, fun h => absurd (hB.lt j h) hj⟩
  subst hpq
  refine ⟨rfl, ?_⟩
  intro i j hj
  rcases Nat.lt_or_ge i p.length with hi | hi
  · have hmem := row_mem_rowSpace B (hi.trans_le hqr) c
    rw [← hspace] at hmem
    calc A i j
        = ∑ s : Fin p.length, A i (hA.column s) * A s j :=
          hA.eq_sum hA0 (row_mem_rowSpace A (hi.trans_le hpr) c) ⟨j, hj⟩
      _ = ∑ s : Fin p.length, B i (hA.column s) * A s j := by
          apply Finset.sum_congr rfl
          intro s _
          have hentry : A i (hA.column s) = B i (hA.column s) :=
            (hA.entry_pivot hA0 s.isLt).trans (hB.entry_pivot hB0 s.isLt).symm
          rw [hentry]
      _ = B i j := (hA.eq_sum hA0 hmem ⟨j, hj⟩).symm
  · rw [hA.rest i hi j hj, hB.rest i hi j hj]

end Staircase

/-! ## Operations that keep the row space -/

namespace RowOp

/-- An elementary operation that can be undone by one of its kind. -/
def IsElementary : RowOp → Prop
  | swap _ _ => True
  | scale f _ => f ≠ 0
  | addScaled _ source target => source ≠ target

theorem IsElementary.factor_ne_zero {op : RowOp} (h : op.IsElementary) : op.factor ≠ 0 := by
  cases op with
  | swap i j =>
    rw [factor]
    split_ifs <;> norm_num
  | scale f i =>
    intro h0
    exact h (Fraction.isZero_iff.1 (Fraction.toRat_eq_zero_iff.1 h0))
  | addScaled f source target =>
    rw [factor, if_neg h]
    exact one_ne_zero

variable {m n : Mat} (hm : m.WellFormed)
include hm

/-- An operation that succeeds names rows of the matrix. -/
theorem inRange_of_apply {op : RowOp} (h : op.apply m = .ok n) : op.InRange m.rows := by
  have hlt : ∀ {i : ℕ} {row : Vec}, m.line i = .ok row → i < m.rows := by
    intro i row hrow
    by_contra hle
    rw [hm.line_of_le (Nat.le_of_not_lt hle)] at hrow
    cases hrow
  cases op with
  | swap i j =>
    obtain ⟨upper, hi, h⟩ := bind_eq_ok_iff.1 h
    obtain ⟨lower, hj, -⟩ := bind_eq_ok_iff.1 h
    exact ⟨hlt hi, hlt hj⟩
  | scale f i =>
    obtain ⟨row, hi, -⟩ := bind_eq_ok_iff.1 h
    exact hlt hi
  | addScaled f source target =>
    obtain ⟨added, hs, h⟩ := bind_eq_ok_iff.1 h
    obtain ⟨row, ht, -⟩ := bind_eq_ok_iff.1 h
    exact ⟨hlt hs, hlt ht⟩

omit hm in
theorem rowSpace_of_product {r : ℕ} {P : Matrix (Fin r) (Fin r) ℚ} (hP : IsUnit P)
    (h : m.IsProduct P n) (c : ℕ) : rowSpace n.value r c = rowSpace m.value r c := by
  show Submodule.span ℚ (Set.range (n.toMatrix r c).row) = _
  rw [h.toMatrix c, span_row_mul hP]
  rfl

theorem rowSpace_of_apply {op : RowOp} (hop : op.IsElementary) (h : op.apply m = .ok n) (c : ℕ) :
    n.WellFormed ∧ n.rows = m.rows ∧ n.cols = m.cols ∧
      rowSpace n.value m.rows c = rowSpace m.value m.rows c := by
  have hrange := inRange_of_apply hm h
  obtain ⟨hprod, -⟩ := (ends_product hrange hm rfl).of_ok h
  have hunit : IsUnit (op.matrix m.rows) := by
    rw [isUnit_iff_isUnit_det, det_matrix hrange]
    exact hop.factor_ne_zero.isUnit
  exact ⟨hprod.wellFormed, hprod.rows, hprod.cols, rowSpace_of_product hunit hprod c⟩

/-- A run of elementary operations. -/
theorem rowSpace_of_applies {ops : List RowOp} (hops : ∀ op ∈ ops, op.IsElementary)
    (h : ops.foldlM apply m = .ok n) (c : ℕ) :
    n.WellFormed ∧ n.rows = m.rows ∧ n.cols = m.cols ∧
      rowSpace n.value m.rows c = rowSpace m.value m.rows c := by
  induction ops generalizing m with
  | nil =>
    cases h
    exact ⟨hm, rfl, rfl, rfl⟩
  | cons op ops ih =>
    rw [List.foldlM_cons] at h
    obtain ⟨k, hk, h⟩ := bind_eq_ok_iff.1 h
    obtain ⟨hop, hops⟩ := List.forall_mem_cons.1 hops
    obtain ⟨hkwf, hkrows, hkcols, hkspace⟩ := rowSpace_of_apply hm hop hk c
    obtain ⟨hwf, hrows, hcols, hspace⟩ := ih hkwf hops h
    rw [hkrows] at hspace
    exact ⟨hwf, hrows.trans hkrows, hcols.trans hkcols, hspace.trans hkspace⟩

end RowOp

/-! ## The reduced form of a row space -/

namespace Mat

theorem rowSpace_of_gauss {m n : Mat} (hm : m.WellFormed) {full : Bool} {pivots : List ℕ}
    (h : (m.gauss full).outcome = .ok (pivots, n)) (c : ℕ) :
    rowSpace n.value m.rows c = rowSpace m.value m.rows c := by
  obtain ⟨hequiv, -, -⟩ := (ends_gauss hm full).of_ok h
  obtain ⟨P, hunit, hprod, -⟩ := hequiv.exists_isUnit
  exact RowOp.rowSpace_of_product hunit hprod c

variable {a : Mat} (ha : a.WellFormed)
include ha

/-- Matrices of the same dimensions with the same row space. -/
theorem gauss_eq_of_rowSpace {b : Mat} (hb : b.WellFormed) (hrows : b.rows = a.rows)
    (hcols : b.cols = a.cols)
    (hspace : rowSpace b.value a.rows a.cols = rowSpace a.value a.rows a.cols) {p q : List ℕ}
    {m n : Mat} (hp : (a.gauss true).outcome = .ok (p, m))
    (hq : (b.gauss true).outcome = .ok (q, n)) : q = p ∧ n = m := by
  obtain ⟨hm, hmstairs, hmclean⟩ := (ends_gauss ha true).of_ok hp
  obtain ⟨hn, hnstairs, hnclean⟩ := (ends_gauss hb true).of_ok hq
  have hmwf := hm.wellFormed
  have hnwf := hn.wellFormed
  have hreduced : rowSpace n.value a.rows a.cols = rowSpace m.value a.rows a.cols := by
    rw [rowSpace_of_gauss ha hp, ← hspace, ← hrows, rowSpace_of_gauss hb hq]
  have hmle := hmstairs.length_le_rows hmwf.main
  have hnle := hnstairs.length_le_rows hnwf.main
  rw [hmwf.rows] at hmle
  rw [hnwf.rows, hrows] at hnle
  rw [hcols] at hnstairs
  obtain ⟨hpivots, hvalue⟩ :=
    hnstairs.unique (hnclean rfl) hnle hmstairs (hmclean rfl) hmle hreduced
  refine ⟨hpivots, ext_toMatrix hnwf.main (hnwf.rows.trans hrows) (hn.cols.trans hcols) hmwf.main
    hmwf.rows hm.cols ?_⟩
  ext i j
  exact hvalue i j j.isLt

/-- **The reduced form is canonical.** Matrices of the same dimensions whose rows span the same
space have the same pivots and the same reduced form, as far as elimination does not overflow, down
to the numerators and denominators of the entries. So do a matrix and what a run of elementary row
operations makes of it. -/
theorem gauss_canonical {p : List ℕ} {m : Mat} (hp : (a.gauss true).outcome = .ok (p, m)) :
    (∀ (b : Mat) (q : List ℕ) (n : Mat), b.WellFormed → b.rows = a.rows → b.cols = a.cols →
      Submodule.span ℚ (Set.range (b.toMatrix a.rows a.cols).row) =
        Submodule.span ℚ (Set.range (a.toMatrix a.rows a.cols).row) →
      (b.gauss true).outcome = .ok (q, n) → q = p ∧ n = m) ∧
    ∀ (ops : List RowOp) (b : Mat) (q : List ℕ) (n : Mat), (∀ op ∈ ops, op.IsElementary) →
      ops.foldlM RowOp.apply a = .ok b → (b.gauss true).outcome = .ok (q, n) → q = p ∧ n = m := by
  constructor
  · intro b q n hb hrows hcols hspace hq
    exact gauss_eq_of_rowSpace ha hb hrows hcols hspace hp hq
  · intro ops b q n hops hb hq
    obtain ⟨hbwf, hrows, hcols, hspace⟩ := RowOp.rowSpace_of_applies ha hops hb a.cols
    exact gauss_eq_of_rowSpace ha hbwf hrows hcols hspace hp hq

omit ha in
/-- A matrix of rank two, and what it becomes by an operation of each kind. Elimination chooses the
first row of one for its first pivot, and the last row of the other. -/
theorem gauss_canonical_three_by_three :
    let a : Mat := ⟨3, 3, [[1, 1, 0], [0, 1, 1], [1, .ofInt32 2, 1]]⟩
    let ops : List RowOp := [.swap 0 2, .addScaled (-1) 0 1, .scale (.ofInt32 3) 2]
    let b : Mat := ⟨3, 3, [[1, .ofInt32 2, 1], [-1, -1, 0], [.ofInt32 3, .ofInt32 3, 0]]⟩
    let m : Mat := ⟨3, 3, [[1, 0, -1], [0, 1, 1], [0, 0, 0]]⟩
    a.WellFormed ∧ b.WellFormed ∧ (∀ op ∈ ops, op.IsElementary) ∧
      ops.foldlM RowOp.apply a = .ok b ∧
      Submodule.span ℚ (Set.range (b.toMatrix 3 3).row) =
        Submodule.span ℚ (Set.range (a.toMatrix 3 3).row) ∧
      (a.gauss true).outcome = .ok ([0, 1], m) ∧
      (∀ q n, (b.gauss true).outcome = .ok (q, n) → q = [0, 1] ∧ n = m) ∧
      (b.gauss true).outcome = .ok ([0, 1], m) := by
  intro a ops b m
  have ha : a.WellFormed := ⟨rfl, by decide⟩
  have hb : b.WellFormed := ⟨rfl, by decide⟩
  have hops : ∀ op ∈ ops, op.IsElementary := by
    intro op hop
    simp only [ops, List.mem_cons, List.not_mem_nil, or_false] at hop
    rcases hop with rfl | rfl | rfl
    · exact True.intro
    · exact Nat.zero_ne_one
    · show Fraction.ofInt32 3 ≠ 0
      decide
  have hrun : ops.foldlM RowOp.apply a = .ok b := by
    decide +kernel
  have hp : (a.gauss true).outcome = .ok ([0, 1], m) := by
    decide +kernel
  have hq : (b.gauss true).outcome = .ok ([0, 1], m) := by
    decide +kernel
  obtain ⟨-, -, -, hspace⟩ := RowOp.rowSpace_of_applies ha hops hrun 3
  obtain ⟨hsame, -⟩ := gauss_canonical ha hp
  exact ⟨ha, hb, hops, hrun, hspace, hp, fun q n => hsame b q n hb rfl rfl hspace, hq⟩

end Mat

end ExactLinAlg
