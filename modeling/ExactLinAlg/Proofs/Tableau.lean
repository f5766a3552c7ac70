import ExactLinAlg.Elimination.Tableau
import ExactLinAlg.Proofs.Pivot
import ExactLinAlg.Proofs.RowOps

/-!
# The steps of elimination

`Tableau.Follows r d s t` says that one matrix of determinant `d` takes the matrix of `s` to that of
`t` and the companion of `s` to that of `t`, by multiplication from the left. Every step of
elimination gives a tableau that follows from the one before. What a step does to the entries of the
matrix under elimination is said beside it: `Raises` for the fetch of a pivot, `Clears` for the
clearing of a column, `Reduces` for the whole treatment of a column.
-/

namespace ExactLinAlg

open Matrix

/-! ## Exact products -/

/-- `n` is the product of `P` and `m`. -/
structure Mat.IsProduct {r : ℕ} (P : Matrix (Fin r) (Fin r) ℚ) (m n : Mat) : Prop where
  wellFormed : n.WellFormed
  rows : n.rows = r
  cols : n.cols = m.cols
  value : ∀ (i : Fin r) (j : ℕ), n.value i j = ∑ k, P i k * m.value k j

namespace Mat.IsProduct

variable {r : ℕ} {P Q : Matrix (Fin r) (Fin r) ℚ} {m n p : Mat}

theorem toMatrix (h : IsProduct P m n) (c : ℕ) : n.toMatrix r c = P * m.toMatrix r c := by
  ext i j
  rw [toMatrix_apply, h.value, mul_apply]
  rfl

theorem refl (hm : m.WellFormed) (hr : m.rows = r) :
    IsProduct (1 : Matrix (Fin r) (Fin r) ℚ) m m := by
  refine ⟨hm, hr, rfl, fun i j => ?_⟩
  simp [one_apply]

theorem trans (h : IsProduct P m n) (h' : IsProduct Q n p) : IsProduct (Q * P) m p := by
  refine ⟨h'.wellFormed, h'.rows, h'.cols.trans h.cols, fun i j => ?_⟩
  rw [h'.value]
  simp only [h.value, mul_apply, Finset.sum_mul, Finset.mul_sum, mul_assoc]
  exact Finset.sum_comm

theorem rel_trans {a b c : Option Mat}
    (h : Option.Rel (Mat.IsProduct P) a b) (h' : Option.Rel (Mat.IsProduct Q) b c) :
    Option.Rel (Mat.IsProduct (Q * P)) a c := by
  cases h with
  | none =>
    cases h'
    exact .none
  | some h =>
    cases h' with
    | some h' => exact .some (h.trans h')

end Mat.IsProduct

/-- A row operation gives the product with its elementary matrix. -/
theorem RowOp.ends_product {r : ℕ} {op : RowOp} (h : op.InRange r) {m : Mat} (hm : m.WellFormed)
    (hr : m.rows = r) :
    Ends Error.IsOverflow (fun n => m.IsProduct (op.matrix r) n ∧ n.value = op.act m.value)
      (op.apply m) := by
  refine (ends_apply hm (hr ▸ h)).imp fun n ⟨hn, hrows, hcols, hvalue⟩ => ?_
  refine ⟨⟨hn, hrows.trans hr, hcols, fun i j => ?_⟩, hvalue⟩
  rw [hvalue, act_eq_sum h]

namespace Tableau

/-- Both parts of a tableau are well formed and have `r` rows. -/
structure WellFormed (r : ℕ) (t : Tableau) : Prop where
  main : t.main.WellFormed
  rows : t.main.rows = r
  companion : ∀ k, t.companion = some k → k.WellFormed ∧ k.rows = r

theorem wellFormed_some {r : ℕ} {m k : Mat} (hm : m.WellFormed) (hrows : m.rows = r)
    (hk : k.WellFormed) (hkrows : k.rows = r) : WellFormed r ⟨m, some k⟩ := by
  refine ⟨hm, hrows, ?_⟩
  rintro _ ⟨⟩
  exact ⟨hk, hkrows⟩

/-- Both parts of `t` are the products of `P` and those of `s`. -/
structure IsProduct {r : ℕ} (P : Matrix (Fin r) (Fin r) ℚ) (s t : Tableau) : Prop where
  main : s.main.IsProduct P t.main
  companion : Option.Rel (Mat.IsProduct P) s.companion t.companion

/-- Row operations that multiply determinants by `d` lead from `s` to `t`. -/
def Follows (r : ℕ) (d : ℚ) (s t : Tableau) : Prop :=
  ∃ P : Matrix (Fin r) (Fin r) ℚ, P.det = d ∧ s.IsProduct P t

section Follows

variable {r : ℕ} {s t u : Tableau} {d e : ℚ}

theorem Follows.refl (ht : t.WellFormed r) : Follows r 1 t t := by
  refine ⟨1, det_one, Mat.IsProduct.refl ht.main ht.rows, ?_⟩
  cases hk : t.companion with
  | none => exact Option.Rel.none
  | some k => exact Option.Rel.some (Mat.IsProduct.refl (ht.companion k hk).1 (ht.companion k hk).2)

theorem Follows.trans (h : Follows r d s t) (h' : Follows r e t u) : Follows r (e * d) s u := by
  obtain ⟨P, hP, hmain, hcomp⟩ := h
  obtain ⟨Q, hQ, hmain', hcomp'⟩ := h'
  exact ⟨Q * P, by rw [det_mul, hP, hQ], hmain.trans hmain', Mat.IsProduct.rel_trans hcomp hcomp'⟩

theorem Follows.wellFormed (h : Follows r d s t) : t.WellFormed r := by
  obtain ⟨P, -, hmain, hcomp⟩ := h
  refine ⟨hmain.wellFormed, hmain.rows, fun k hk => ?_⟩
  rw [hk] at hcomp
  generalize s.companion = c at hcomp
  cases hcomp with
  | some hk => exact ⟨hk.wellFormed, hk.rows⟩

theorem Follows.cols (h : Follows r d s t) : t.main.cols = s.main.cols := by
  obtain ⟨P, -, hmain, -⟩ := h
  exact hmain.cols

theorem Follows.companion_eq_none (h : Follows r d s t) (hs : s.companion = none) :
    t.companion = none := by
  obtain ⟨_, -, -, hcompanion⟩ := h
  rw [hs] at hcompanion
  generalize t.companion = c at hcompanion
  cases hcompanion
  rfl

theorem Follows.det (h : Follows r d s t) :
    (t.main.toMatrix r r).det = d * (s.main.toMatrix r r).det := by
  obtain ⟨P, hP, hmain, -⟩ := h
  rw [hmain.toMatrix, det_mul, hP]

/-- Row operations lead from `s` to `t`, and back. -/
def RowEquiv (r : ℕ) (s t : Tableau) : Prop := ∃ d, d ≠ 0 ∧ Follows r d s t

theorem Follows.rowEquiv (h : Follows r d s t) (hd : d ≠ 0) : RowEquiv r s t := ⟨d, hd, h⟩

theorem RowEquiv.refl (ht : t.WellFormed r) : RowEquiv r t t :=
  (Follows.refl ht).rowEquiv one_ne_zero

theorem RowEquiv.trans (h : RowEquiv r s t) (h' : RowEquiv r t u) : RowEquiv r s u := by
  obtain ⟨d, hd, h⟩ := h
  obtain ⟨e, he, h'⟩ := h'
  exact (h.trans h').rowEquiv (mul_ne_zero he hd)

theorem RowEquiv.wellFormed (h : RowEquiv r s t) : t.WellFormed r := by
  obtain ⟨d, -, h⟩ := h
  exact h.wellFormed

theorem RowEquiv.cols (h : RowEquiv r s t) : t.main.cols = s.main.cols := by
  obtain ⟨d, -, h⟩ := h
  exact h.cols

theorem RowEquiv.exists_isUnit (h : RowEquiv r s t) :
    ∃ P : Matrix (Fin r) (Fin r) ℚ, IsUnit P ∧ s.IsProduct P t := by
  obtain ⟨d, hd, P, hP, hprod⟩ := h
  refine ⟨P, ?_, hprod⟩
  rw [isUnit_iff_isUnit_det, hP]
  exact hd.isUnit

theorem RowEquiv.companion_eq_none (h : RowEquiv r s t) (hs : s.companion = none) :
    t.companion = none := by
  obtain ⟨d, -, h⟩ := h
  exact h.companion_eq_none hs

theorem RowEquiv.det_eq_zero (h : RowEquiv r s t) (hdet : (t.main.toMatrix r r).det = 0) :
    (s.main.toMatrix r r).det = 0 := by
  obtain ⟨d, hd, h⟩ := h
  rw [h.det] at hdet
  exact (mul_eq_zero.1 hdet).resolve_left hd

theorem outcome_apply_none (m : Mat) (op : RowOp) :
    (apply ⟨m, none⟩ op).outcome = do return ⟨← op.apply m, none⟩ := by
  rw [apply, Traced.outcome_bind]
  rfl

/-- A row operation on both parts. -/
theorem ends_apply {op : RowOp} (h : op.InRange r) (ht : t.WellFormed r) :
    Ends Error.IsOverflow (fun u => Follows r op.factor t u ∧ u.main.value = op.act t.main.value)
      (t.apply op).outcome := by
  apply Traced.ends_bind (RowOp.ends_product h ht.main ht.rows)
  intro n hn
  have hcomp : Ends Error.IsOverflow (Option.Rel (Mat.IsProduct (op.matrix r)) t.companion)
      (t.companion.mapM op.perform).outcome := by
    apply Traced.ends_mapM_option
    intro k hk
    obtain ⟨hkwf, hkrows⟩ := ht.companion k hk
    exact (RowOp.ends_product h hkwf hkrows).imp fun _ h => h.1
  apply Traced.ends_bind hcomp
  intro c hc
  exact ⟨⟨op.matrix r, RowOp.det_matrix h, hn.1, hc⟩, hn.2⟩

end Follows

/-! ## Fetching a pivot -/

/-- How the rows `A` become `B` when a pivot of column `col` is moved up into row `row`. -/
structure Raises (A B : ℕ → ℕ → ℚ) (col row : ℕ) : Prop where
  above : ∀ i, i < row → B i = A i
  pivot_ne_zero : B row col ≠ 0
  zero : ∀ j, (∀ i, row ≤ i → A i j = 0) → ∀ i, row ≤ i → B i j = 0

/-- What the fetch of a pivot may answer. -/
def IsFetched (r col row : ℕ) (t : Tableau) : Option (Tableau × Bool) → Prop
  | none => ∀ i, row ≤ i → t.main.value i col = 0
  | some (u, swapped) => Follows r (if swapped then -1 else 1) t u ∧
      Raises t.main.value u.main.value col row

/-- What the fetch of a pivot may answer, with the row `p` that the pivot comes from. -/
def IsFetchedFrom (r col row : ℕ) (t : Tableau) : Option (Tableau × Bool) → Prop
  | none => ∀ i, row ≤ i → t.main.value i col = 0
  | some (u, swapped) => Follows r (if swapped then -1 else 1) t u ∧
      ∃ p, row ≤ p ∧ t.main.value p col ≠ 0 ∧ u.main.value = (RowOp.swap row p).act t.main.value

theorem raises_swap {A : ℕ → ℕ → ℚ} {col row p : ℕ} (hp : row ≤ p) (hne : A p col ≠ 0) :
    Raises A ((RowOp.swap row p).act A) col row := by
  refine ⟨fun i hi => funext fun j => ?_, ?_, fun j hj i hi => ?_⟩
  · rw [RowOp.act_swap, Equiv.swap_apply_of_ne_of_ne (by omega) (by omega)]
  · rwa [RowOp.act_swap, Equiv.swap_apply_left]
  · apply hj
    rw [Equiv.swap_apply_def]
    split_ifs <;> omega

theorem IsFetchedFrom.isFetched {r col row : ℕ} {t : Tableau} {o : Option (Tableau × Bool)}
    (h : IsFetchedFrom r col row t o) : IsFetched r col row t o := by
  rcases o with _ | ⟨u, swapped⟩
  · exact h
  · obtain ⟨hu, p, hp, hne, hvalue⟩ := h
    exact ⟨hu, hvalue ▸ raises_swap hp hne⟩

/-- The fetch of a pivot fails only where the search or the exchange does. -/
theorem ends_fetchPivot_of {r : ℕ} {t : Tableau} (ht : t.WellFormed r) {col row : ℕ}
    {E : Error → Prop}
    (hselect : Ends E (t.main.IsPivot col row) (t.main.selectPivot col row).outcome)
    (hswap : ∀ p, row ≤ p → p < r →
      Ends E (fun u => Follows r (RowOp.swap row p).factor t u ∧
        u.main.value = (RowOp.swap row p).act t.main.value) (t.apply (.swap row p)).outcome) :
    Ends E (IsFetchedFrom r col row t) (t.fetchPivot col row).outcome := by
  apply Traced.ends_bind hselect
  intro o ho
  cases o with
  | none => exact ho
  | some p =>
    obtain ⟨hle, hlt, hne, -⟩ := ho
    by_cases hp : p = row
    · subst hp
      simp only [if_pos]
      refine ⟨Follows.refl ht, p, hle, hne, ?_⟩
      rw [RowOp.act, Equiv.swap_self]
      rfl
    · simp only [if_neg hp]
      apply Traced.ends_bind (hswap p hle (ht.rows ▸ hlt))
      rintro u ⟨hu, hvalue⟩
      rw [RowOp.factor, if_neg (Ne.symm hp)] at hu
      exact ⟨hu, p, hle, hne, hvalue⟩

section Steps

variable {r : ℕ} {t : Tableau} (ht : t.WellFormed r) {col : ℕ} (hcol : col < t.main.cols) (row : ℕ)
include ht hcol

theorem ends_fetchPivot :
    Ends Error.IsOverflow (IsFetched r col row t) (t.fetchPivot col row).outcome := by
  apply (ends_fetchPivot_of ht (Mat.ends_selectPivot ht.main hcol row) _).imp
  · intro o ho
    exact ho.isFetched
  · intro p hle hlt
    have hrange : (RowOp.swap row p).InRange r := ⟨hle.trans_lt hlt, hlt⟩
    exact ends_apply hrange ht

/-! ## Dividing by the pivot -/

theorem ends_normalizeRow (hne : t.main.value row col ≠ 0) :
    Ends Error.IsOverflow (fun u => Follows r (t.main.value row col)⁻¹ t u ∧ u.main.value =
        Function.update t.main.value row ((t.main.value row col)⁻¹ • t.main.value row))
      (t.normalizeRow col row).outcome := by
  have hrow : row < t.main.rows := by
    by_contra hge
    exact hne (ht.main.value_of_rows_le (Nat.le_of_not_lt hge) col)
  refine Traced.ends_bind (ht.main.ends_entry hrow hcol) fun x hx => ?_
  refine Traced.ends_bind (Fraction.ends_recip (hx ▸ hne)) fun y hy => ?_
  have hrange : (RowOp.scale y row).InRange r := ht.rows ▸ hrow
  refine (ends_apply hrange ht).imp fun u ⟨hu, hvalue⟩ => ?_
  rw [← hx, ← hy]
  exact ⟨hu, hvalue⟩

end Steps

/-! ## Clearing a column -/

/-- How the rows `A` become `B` when column `col` is cleared in the rows of `S` by row `row`. -/
structure Clears (A B : ℕ → ℕ → ℚ) (col row : ℕ) (S : ℕ → Prop) : Prop where
  target : ∀ i, S i → B i = A i - (A i col / A row col) • A row
  other : ∀ i, ¬ S i → B i = A i

theorem Clears.eq_zero {A B : ℕ → ℕ → ℚ} {col row : ℕ} {S : ℕ → Prop} (h : Clears A B col row S)
    (hne : A row col ≠ 0) {i : ℕ} (hi : S i) : B i col = 0 := by
  rw [h.target i hi, Pi.sub_apply, Pi.smul_apply, smul_eq_mul, div_mul_cancel₀ _ hne, sub_self]

/-- A column without an entry in the clearing row is kept. -/
theorem Clears.keep {A B : ℕ → ℕ → ℚ} {col row : ℕ} {S : ℕ → Prop} (h : Clears A B col row S)
    {j : ℕ} (hj : A row j = 0) (i : ℕ) : B i j = A i j := by
  by_cases hi : S i
  · rw [h.target i hi, Pi.sub_apply, Pi.smul_apply, hj, smul_zero, sub_zero]
  · rw [h.other i hi]

/-- Clearing a row and then others. A row that is cleared twice is not changed the second time. -/
theorem Clears.cons {A B C : ℕ → ℕ → ℚ} {col row a : ℕ} {l : List ℕ} (hne : A row col ≠ 0)
    (ha : a ≠ row) (h : Clears A B col row (· = a)) (h' : Clears B C col row (· ∈ l)) :
    Clears A C col row (· ∈ a :: l) := by
  have hrow : B row = A row := h.other row (Ne.symm ha)
  have ha0 : B a col = 0 := h.eq_zero hne rfl
  refine ⟨fun i hi => ?_, fun i hi => ?_⟩
  · by_cases hil : i ∈ l
    · rw [h'.target i hil, hrow]
      by_cases hia : i = a
      · rw [hia, ha0, zero_div, zero_smul, sub_zero, h.target a rfl]
      · rw [h.other i hia]
    · have hia : i = a := (List.mem_cons.1 hi).resolve_right hil
      rw [h'.other i hil, h.target i hia]
  · rw [List.mem_cons, not_or] at hi
    rw [h'.other i hi.2, h.other i hi.1]

/-- `multiple` finds for an entry the multiple of a row with entry `p` that clears it. -/
def Cancels (p : ℚ) (multiple : Fraction → Except Error Fraction) : Prop :=
  ∀ e, Ends Error.IsOverflow (fun f => f.toRat = -(e.toRat / p)) (multiple e)

theorem cancels_opposite : Cancels 1 opposite := by
  intro e
  apply Ends.pure
  rw [Fraction.toRat_neg, div_one]

section Clear

variable {r : ℕ} {t : Tableau} (ht : t.WellFormed r) {col row : ℕ} (hcol : col < t.main.cols)
  (hne : t.main.value row col ≠ 0) {multiple : Fraction → Except Error Fraction}
  (hmult : Cancels (t.main.value row col) multiple)

include ht hne in
theorem row_lt_of_pivot : row < r := by
  by_contra hge
  exact hne (ht.main.value_of_rows_le (ht.rows ▸ Nat.le_of_not_lt hge) col)

include ht hcol hne hmult

theorem ends_clearEntry {i : ℕ} (hi : i < r) (hir : i ≠ row) :
    Ends Error.IsOverflow
      (fun u => Follows r 1 t u ∧ Clears t.main.value u.main.value col row (· = i))
      (clearEntry multiple col row t i).outcome := by
  refine Traced.ends_bind (ht.main.ends_entry (ht.rows ▸ hi) hcol) fun x hx => ?_
  by_cases hz : x.isZero = true
  · rw [if_pos hz]
    rw [Fraction.toRat_eq_zero_iff.2 hz] at hx
    refine ⟨Follows.refl ht, ⟨fun j hj => ?_, fun _ _ => rfl⟩⟩
    rw [hj, ← hx, zero_div, zero_smul, sub_zero]
  · rw [if_neg hz]
    refine Traced.ends_bind (hmult x) fun f hf => ?_
    have hrange : (RowOp.addScaled f row i).InRange r := ⟨row_lt_of_pivot ht hne, hi⟩
    refine (ends_apply hrange ht).imp fun u ⟨hu, hvalue⟩ => ?_
    rw [RowOp.factor, if_neg (Ne.symm hir)] at hu
    rw [hvalue]
    refine ⟨hu, ⟨fun j hj => ?_, fun j hj => Function.update_of_ne hj _ _⟩⟩
    rw [hj, RowOp.act, Function.update_self, hf, hx, neg_smul, sub_eq_add_neg]

theorem ends_clear (l : List ℕ) (hl : ∀ i ∈ l, i < r ∧ i ≠ row) :
    Ends Error.IsOverflow
      (fun u => Follows r 1 t u ∧ Clears t.main.value u.main.value col row (· ∈ l))
      (l.foldlM (clearEntry multiple col row) t).outcome := by
  induction l generalizing t with
  | nil => exact ⟨Follows.refl ht, ⟨fun _ hi => absurd hi List.not_mem_nil, fun _ _ => rfl⟩⟩
  | cons a l ih =>
    rw [List.foldlM_cons]
    obtain ⟨har, ha⟩ := hl a List.mem_cons_self
    refine Traced.ends_bind (ends_clearEntry ht hcol hne hmult har ha) fun u ⟨hu, hclear⟩ => ?_
    have hrow : u.main.value row = t.main.value row := hclear.other row (Ne.symm ha)
    refine (ih hu.wellFormed (hu.cols ▸ hcol) (hrow ▸ hne) (hrow ▸ hmult)
      fun i hi => hl i (List.mem_cons_of_mem a hi)).imp fun v ⟨hv, hclear'⟩ => ?_
    exact ⟨mul_one (1 : ℚ) ▸ hu.trans hv, hclear.cons hne ha hclear'⟩

theorem ends_clearBelow :
    Ends Error.IsOverflow
      (fun u => Follows r 1 t u ∧ Clears t.main.value u.main.value col row (row < ·))
      (t.clearBelow multiple col row).outcome := by
  have hmem : ∀ i, i ∈ List.range' (row + 1) (t.main.rows - (row + 1)) ↔ row < i ∧ i < r := by
    intro i
    rw [List.mem_range'_1, ht.rows]
    omega
  refine (ends_clear ht hcol hne hmult _ fun i hi => ?_).imp fun u ⟨hu, hclear⟩ => ⟨hu, ?_⟩
  · exact ⟨((hmem i).1 hi).2, ne_of_gt ((hmem i).1 hi).1⟩
  · refine ⟨fun i hi => ?_, fun i hi => hclear.other i fun h => hi ((hmem i).1 h).1⟩
    by_cases hir : i < r
    · exact hclear.target i ((hmem i).2 ⟨hi, hir⟩)
    -- the rows outside are zero, before and after
    · have h0 := ht.main.value_of_rows_le (ht.rows ▸ Nat.le_of_not_lt hir) col
      rw [hclear.other i fun h => hir ((hmem i).1 h).2, h0, zero_div, zero_smul, sub_zero]

theorem ends_clearAbove :
    Ends Error.IsOverflow
      (fun u => Follows r 1 t u ∧ Clears t.main.value u.main.value col row (· < row))
      (t.clearAbove multiple col row).outcome := by
  have hrow := row_lt_of_pivot ht hne
  refine (ends_clear ht hcol hne hmult _ fun i hi => ?_).imp fun u ⟨hu, hclear⟩ => ⟨hu, ?_⟩
  · have hi := List.mem_range.1 hi
    exact ⟨hi.trans hrow, ne_of_lt hi⟩
  · exact ⟨fun i hi => hclear.target i (List.mem_range.2 hi),
      fun i hi => hclear.other i fun h => hi (List.mem_range.1 h)⟩

end Clear

/-! ## Reducing a column -/

/-- How the rows `A` become `B` when column `col` is brought into echelon form from `row` on. -/
structure Reduces (A B : ℕ → ℕ → ℚ) (col row : ℕ) : Prop where
  above : ∀ i, i < row → B i = A i
  pivot : B row col = 1
  below : ∀ i, row < i → B i col = 0
  zero : ∀ j, (∀ i, row ≤ i → A i j = 0) → ∀ i, row ≤ i → B i j = 0

/-- What the reduction of a column may answer. -/
def IsReduced (r col row : ℕ) (t : Tableau) : Option Tableau → Prop
  | none => ∀ i, row ≤ i → t.main.value i col = 0
  | some u => RowEquiv r t u ∧ Reduces t.main.value u.main.value col row

theorem Raises.reduces {A B C : ℕ → ℕ → ℚ} {col row : ℕ} (h : Raises A B col row)
    (hC : Clears (Function.update B row ((B row col)⁻¹ • B row)) C col row (row < ·)) :
    Reduces A C col row := by
  have hself : Function.update B row ((B row col)⁻¹ • B row) row = (B row col)⁻¹ • B row :=
    Function.update_self ..
  have hpivot : Function.update B row ((B row col)⁻¹ • B row) row col = 1 := by
    rw [hself, Pi.smul_apply, smul_eq_mul, inv_mul_cancel₀ h.pivot_ne_zero]
  refine ⟨fun i hi => ?_, ?_, fun i hi => hC.eq_zero (hpivot ▸ one_ne_zero) hi, fun j hj i hi => ?_⟩
  · rw [hC.other i (by omega), Function.update_of_ne (ne_of_lt hi), h.above i hi]
  · rw [hC.other row (lt_irrefl row), hpivot]
  · have hB := h.zero j hj
    rw [hC.keep (by rw [hself, Pi.smul_apply, hB row le_rfl, smul_zero])]
    by_cases hir : i = row
    · rw [hir, hself, Pi.smul_apply, hB row le_rfl, smul_zero]
    · rw [Function.update_of_ne hir, hB i hi]

theorem ends_reduceColumn {r : ℕ} {t : Tableau} (ht : t.WellFormed r) {col : ℕ}
    (hcol : col < t.main.cols) (row : ℕ) :
    Ends Error.IsOverflow (IsReduced r col row t) (t.reduceColumn col row).outcome := by
  refine Traced.ends_bind (ends_fetchPivot ht hcol row) fun o ho => ?_
  rcases o with _ | ⟨u, swapped⟩
  · exact ho
  · obtain ⟨hu, hraises⟩ := ho
    have hcolu : col < u.main.cols := hu.cols ▸ hcol
    have hne := hraises.pivot_ne_zero
    refine Traced.ends_bind (ends_normalizeRow hu.wellFormed hcolu row hne) fun v ⟨hv, hvalue⟩ => ?_
    have hone : v.main.value row col = 1 := by
      rw [hvalue, Function.update_self, Pi.smul_apply, smul_eq_mul, inv_mul_cancel₀ hne]
    refine Traced.ends_bind (ends_clearBelow hv.wellFormed (hv.cols ▸ hcolu)
      (hone ▸ one_ne_zero) (hone ▸ cancels_opposite)) fun w ⟨hw, hclears⟩ => ?_
    rw [hvalue] at hclears
    have hsign : (if swapped then -1 else 1 : ℚ) ≠ 0 := by
      split_ifs <;> norm_num
    have huv := (hu.rowEquiv hsign).trans (hv.rowEquiv (inv_ne_zero hne))
    exact ⟨huv.trans (hw.rowEquiv one_ne_zero), hraises.reduces hclears⟩

end Tableau

end ExactLinAlg
