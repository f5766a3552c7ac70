import ExactLinAlg.Proofs.Failures
import ExactLinAlg.Proofs.Reachable

/-!
# The determinant of a random unimodular matrix

Every border that can be drawn fits its position (`Border.Fits`), whatever the stream: its row and
its column end on the diagonal, with a one and with a one or minus one, and all entries are at most
one in absolute value. So the rows of `n` borders form a lower triangular matrix and their columns
an upper triangular one. The product of two borders stops where the shorter of the two ends, and the
entries that are left out are zeros of the triangular matrices, so the matrix of these products is
the product of the two (`Border.lower_mul_upper`).
-/

namespace ExactLinAlg

open Matrix WordStream

/-- What holds of the result for every element and state holds of the results in their order. -/
theorem forall₂_run_mapM {σ α β : Type} {f : α → StateM σ β} {R : α → β → Prop} {l : List α}
    (h : ∀ a ∈ l, ∀ s, R a ((f a).run s).1) (s : σ) : List.Forall₂ R l ((l.mapM f).run s).1 := by
  induction l generalizing s with
  | nil => exact List.Forall₂.nil
  | cons a l ih =>
    rw [List.mapM_cons]
    exact .cons (h a List.mem_cons_self s) (ih (fun b hb => h b (List.mem_cons_of_mem a hb)) _)

/-- Lists are multiplied as if they went on with zeros. -/
theorem foldl_zipWith_mul {n : ℕ} {l r : List ℤ} (h : min l.length r.length ≤ n) :
    (List.zipWith (· * ·) l r).foldl (· + ·) 0 =
      ∑ k ∈ Finset.range n, l.getD k 0 * r.getD k 0 := by
  rw [← List.sum_eq_foldl]
  induction l generalizing r n with
  | nil => simp
  | cons x l ih =>
    cases r with
    | nil => simp
    | cons y r =>
      obtain ⟨n, rfl⟩ : ∃ k, n = k + 1 := Nat.exists_eq_succ_of_ne_zero (by simp at h; omega)
      rw [Finset.sum_range_succ', List.zipWith_cons_cons, List.sum_cons, add_comm]
      simp only [List.getD_cons_succ, List.getD_cons_zero]
      rw [ih (by simpa using h)]

/-! ## Borders -/

namespace Border

/-- The border can be drawn at position `i`. -/
structure Fits (i : ℕ) (b : Border) : Prop where
  length_row : b.row.length = i + 1
  length_column : b.column.length = i + 1
  corner_row : b.row.getD i 0 = 1
  corner_column : b.column.getD i 0 = 1 ∨ b.column.getD i 0 = -1
  abs_row : ∀ x ∈ b.row, |x| ≤ 1
  abs_column : ∀ x ∈ b.column, |x| ≤ 1

theorem abs_drawPair (s : WordStream) :
    |(drawPair.run s).1.1| ≤ 1 ∧ |(drawPair.run s).1.2| ≤ 1 := by
  let lower := (between draw32 (-1) 1 (by decide)).run s
  let upper := (between draw32 (-1) 1 (by decide)).run lower.2
  exact ⟨abs_le.2 lower.1.property, abs_le.2 upper.1.property⟩

/-- A new entry at the end of a list stands behind the others. -/
theorem getD_concat {l : List ℤ} {i : ℕ} (h : l.length = i) (x : ℤ) : (l ++ [x]).getD i 0 = x := by
  rw [List.getD_append_right l [x] 0 i h.le, h, Nat.sub_self]
  rfl

theorem fits_draw (i : ℕ) (s : WordStream) : ((draw i).run s).1.Fits i := by
  let corner := drawBool.run s
  let pairs := ((List.range i).mapM fun _ => drawPair).run corner.2
  have hlen : pairs.1.length = i := (length_run_mapM _ _).trans List.length_range
  have habs : ∀ p ∈ pairs.1, |p.1| ≤ 1 ∧ |p.2| ≤ 1 :=
    forall_mem_run_mapM (fun _ _ s => abs_drawPair s) _
  have hcorner : (if corner.1 then 1 else -1 : ℤ) = 1 ∨ (if corner.1 then 1 else -1 : ℤ) = -1 := by
    split
    · exact Or.inl rfl
    · exact Or.inr rfl
  show Fits i ⟨pairs.1.map Prod.fst ++ [1], pairs.1.map Prod.snd ++ [if corner.1 then 1 else -1]⟩
  constructor
  · rw [List.length_append, List.length_map, hlen]
    rfl
  · rw [List.length_append, List.length_map, hlen]
    rfl
  · exact getD_concat ((List.length_map _).trans hlen) 1
  · rwa [getD_concat ((List.length_map _).trans hlen)]
  · intro x hx
    rcases List.mem_append.1 hx with hx | hx
    · obtain ⟨p, hp, rfl⟩ := List.mem_map.1 hx
      exact (habs p hp).1
    · rw [List.mem_singleton.1 hx, abs_one]
  · intro x hx
    rcases List.mem_append.1 hx with hx | hx
    · obtain ⟨p, hp, rfl⟩ := List.mem_map.1 hx
      exact (habs p hp).2
    · rw [List.mem_singleton.1 hx]
      rcases hcorner with h | h <;> rw [h] <;> decide

namespace Fits

variable {i j : ℕ} {b c : Border}

theorem row_eq_zero (h : b.Fits i) {k : ℕ} (hk : i < k) : b.row.getD k 0 = 0 :=
  List.getD_eq_default _ _ (h.length_row.trans_le hk)

theorem column_eq_zero (h : b.Fits i) {k : ℕ} (hk : i < k) : b.column.getD k 0 = 0 :=
  List.getD_eq_default _ _ (h.length_column.trans_le hk)

/-- A list of numbers that are at most one in absolute value, followed by zeros. -/
theorem abs_getD_le {l : List ℤ} (h : ∀ x ∈ l, |x| ≤ 1) (k : ℕ) : |l.getD k 0| ≤ 1 := by
  rcases Nat.lt_or_ge k l.length with hk | hk
  · rw [List.getD_eq_getElem l 0 hk]
    exact h _ (List.getElem_mem hk)
  · rw [List.getD_eq_default l 0 hk, abs_zero]
    exact zero_le_one

/-- The entry where the row of one border meets the column of another. -/
theorem product_eq_sum (hb : b.Fits i) (hc : c.Fits j) {n : ℕ} (hn : min i j < n) :
    b.product c = ∑ k ∈ Finset.range n, b.row.getD k 0 * c.column.getD k 0 := by
  apply foldl_zipWith_mul
  rw [hb.length_row, hc.length_column]
  omega

theorem abs_product_le (hb : b.Fits i) (hc : c.Fits j) : |b.product c| ≤ min i j + 1 := by
  rw [hb.product_eq_sum hc (Nat.lt_succ_self _)]
  calc |∑ k ∈ Finset.range (min i j + 1), b.row.getD k 0 * c.column.getD k 0|
      ≤ ∑ k ∈ Finset.range (min i j + 1), |b.row.getD k 0 * c.column.getD k 0| :=
        Finset.abs_sum_le_sum_abs _ _
    _ ≤ (Finset.range (min i j + 1)).card • (1 : ℤ) := by
        apply Finset.sum_le_card_nsmul
        intro k _
        rw [abs_mul]
        exact mul_le_one₀ (abs_getD_le hb.abs_row k) (abs_nonneg _) (abs_getD_le hc.abs_column k)
    _ = min i j + 1 := by
        rw [Finset.card_range, nsmul_eq_mul, mul_one]
        push_cast
        rfl

end Fits

/-! ## The factors -/

section Factors

variable {n : ℕ}

/-- The rows of some borders. -/
def lower (b : Fin n → Border) : Matrix (Fin n) (Fin n) ℚ :=
  of fun i k => ((b i).row.getD k 0 : ℤ)

/-- The columns of some borders. -/
def upper (b : Fin n → Border) : Matrix (Fin n) (Fin n) ℚ :=
  of fun k j => ((b j).column.getD k 0 : ℤ)

variable {b : Fin n → Border} (h : ∀ i, (b i).Fits i)
include h

theorem lower_mul_upper (i j : Fin n) : (lower b * upper b) i j = ((b i).product (b j) : ℤ) := by
  rw [(h i).product_eq_sum (h j) (n := n) (by omega), Finset.sum_range, mul_apply]
  push_cast
  rfl

theorem det_lower : (lower b).det = 1 := by
  have hlower : (lower b).IsLowerTriangular := by
    intro i k hik
    exact congrArg Int.cast ((h i).row_eq_zero hik)
  rw [det_of_isLowerTriangular _ hlower]
  apply Finset.prod_eq_one
  intro i _
  exact congrArg Int.cast (h i).corner_row

theorem det_upper : (upper b).det = 1 ∨ (upper b).det = -1 := by
  have hupper : (upper b).IsUpperTriangular := by
    intro k j hjk
    exact congrArg Int.cast ((h j).column_eq_zero hjk)
  rw [det_of_isUpperTriangular hupper]
  apply Finset.prod_induction (p := fun x => x = 1 ∨ x = -1)
  · rintro _ _ (rfl | rfl) (rfl | rfl) <;> norm_num
  · exact Or.inl rfl
  · intro j _
    rcases (h j).corner_column with hj | hj
    · exact Or.inl (congrArg Int.cast hj)
    · exact Or.inr (congrArg Int.cast hj)

end Factors

end Border

/-! ## The matrix -/

theorem Fraction.toRat_ofInt32 (w : Int32) : (ofInt32 w).toRat = (w.toInt : ℚ) := by
  rw [toRat_eq_div]
  show (w.toInt64.toInt : ℚ) / ((1 : Int64).toInt : ℤ) = _
  rw [Int32.toInt_toInt64, Int64.toInt_one, Int.cast_one, div_one]

namespace Mat

variable {n : ℕ} (hn : n < 2 ^ 31) (stream : WordStream)
include hn

/-- The entries are the products of borders that fit, which are 32-bit words. -/
theorem exists_borders : ∃ b : Fin n → Border, (∀ i, (b i).Fits i) ∧
    ∀ i j : Fin n,
      ((randomUnimodular n).run stream).1.value i j = ((b i).product (b j) : ℤ) := by
  let borders := (((List.range n).mapM Border.draw).run stream).1
  have hall := forall₂_run_mapM (f := Border.draw) (R := Border.Fits) (l := List.range n)
    (fun i _ s => Border.fits_draw i s) stream
  have hlen : borders.length = n := hall.length_eq.symm.trans List.length_range
  have hfits : ∀ i (hi : i < borders.length), borders[i].Fits i := by
    intro i hi
    have h := (List.forall₂_iff_get.1 hall).2 i (by rwa [hall.length_eq]) hi
    rwa [List.get_eq_getElem, List.getElem_range] at h
  have hrun : ((randomUnimodular n).run stream).1 =
      ⟨n, n, borders.map fun left => borders.map fun right =>
        Fraction.ofInt32 (Int32.ofInt (left.product right))⟩ := rfl
  refine ⟨fun i => borders[i], fun i => hfits i _, ?_⟩
  intro i j
  have hi : (i : ℕ) < borders.length := hlen.symm ▸ i.isLt
  have hj : (j : ℕ) < borders.length := hlen.symm ▸ j.isLt
  -- a product is at most `n`, which is below `2 ^ 31`, so its word does not wrap around
  have habs := abs_le.1 ((hfits i hi).abs_product_le (hfits j hj))
  rw [hrun, value_of_lt ((List.length_map _).symm ▸ hi), Vec.value_of_lt (by simpa using hj)]
  simp only [List.getElem_map, Fraction.toRat_ofInt32]
  rw [Int32.toInt_ofInt_of_le (by omega) (by omega)]
  rfl

/-- **A random unimodular matrix.** It consists of integers, and the entry in row `i` and column `j`
is at most `min i j + 1` in absolute value. Its determinant is one or minus one, whatever the
stream, so the determinant is found as one of the two unless that overflows, and neither a system
nor the inverse is called singular. -/
theorem randomUnimodular_exact :
    let m : Mat := ((randomUnimodular n).run stream).1
    m.WellFormed ∧ m.rows = n ∧ m.cols = n ∧
    (∀ row ∈ m.data, ∀ x ∈ row, x.isInteger = true) ∧
    (∀ i j, i < n → j < n → |m.value i j| ≤ min i j + 1 ∧ |m.value i j| ≤ n) ∧
    ((m.toMatrix n n).det = 1 ∨ (m.toMatrix n n).det = -1) ∧
    (m.determinant.outcome = .ok 1 ∨ m.determinant.outcome = .ok (-1) ∨
      m.determinant.outcome = .error .overflow) ∧
    (∀ b, (m.solve b).outcome ≠ .error .singular) ∧ m.inverse.outcome ≠ .error .singular := by
  intro m
  have hm : m.WellFormed := wellFormed_randomUnimodular n stream
  obtain ⟨b, hfits, hvalue⟩ := exists_borders hn stream
  have hdet : (m.toMatrix n n).det = 1 ∨ (m.toMatrix n n).det = -1 := by
    have hproduct : m.toMatrix n n = Border.lower b * Border.upper b := by
      ext i j
      rw [Border.lower_mul_upper hfits]
      exact hvalue i j
    rw [hproduct, det_mul, Border.det_lower hfits, one_mul]
    exact Border.det_upper hfits
  have hne : (m.toMatrix n n).det ≠ 0 := by
    rcases hdet with h | h <;> rw [h] <;> norm_num
  refine ⟨hm, rfl, rfl, ?_, ?_, hdet, ?_, ?_, ?_⟩
  · intro row hrow x hx
    obtain ⟨left, -, rfl⟩ := List.mem_map.1 hrow
    obtain ⟨right, -, rfl⟩ := List.mem_map.1 hx
    rfl
  · intro i j hi hj
    have hbound : |m.value i j| ≤ min i j + 1 := by
      rw [hvalue ⟨i, hi⟩ ⟨j, hj⟩]
      exact_mod_cast (hfits ⟨i, hi⟩).abs_product_le (hfits ⟨j, hj⟩)
    refine ⟨hbound, hbound.trans ?_⟩
    exact_mod_cast (Nat.succ_le_of_lt ((min_le_left i j).trans_lt hi))
  · cases h : m.determinant.outcome with
    | ok d =>
      have hd := (ends_determinant hm (n := n) rfl rfl).of_ok h
      rcases hdet with hone | hone
      · rw [hone, ← Fraction.toRat_one] at hd
        exact Or.inl (congrArg Except.ok (Fraction.toRat_injective hd))
      · rw [hone, ← Fraction.toRat_one, ← Fraction.toRat_neg] at hd
        exact Or.inr (Or.inl (congrArg Except.ok (Fraction.toRat_injective hd)))
    | error e =>
      obtain rfl := (ends_determinant hm rfl rfl).of_error h
      exact Or.inr (Or.inr rfl)
  · intro b h
    by_cases hb : b.length = n
    · rcases (ends_solve hm rfl rfl hb).of_error h with he | ⟨-, hzero⟩
      · cases he
      · exact hne hzero
    · cases h.symm.trans (solve_of_length_ne rfl (Ne.symm hb))
  · intro h
    rcases (ends_inverse hm rfl rfl).of_error h with he | ⟨-, hzero⟩
    · cases he
    · exact hne hzero

omit hn in
/-- A matrix that reaches the bound in its last entry. -/
theorem randomUnimodular_exact_three :
    let m : Mat := ⟨3, 3, [[-1, 1, -1], [1, 0, 0], [-1, Fraction.ofInt32 2, Fraction.ofInt32 (-3)]]⟩
    (3 : ℕ) < 2 ^ 31 ∧ ((randomUnimodular 3).run (WordStream.cycle #[0, 0xffffffff])).1 = m ∧
      m.WellFormed ∧ |m.value 2 2| ≤ 3 ∧
      ((m.toMatrix 3 3).det = 1 ∨ (m.toMatrix 3 3).det = -1) ∧
      (m.determinant.outcome = .ok 1 ∨ m.determinant.outcome = .ok (-1) ∨
        m.determinant.outcome = .error .overflow) ∧
      (m.solve [1, 1, 1]).outcome ≠ .error .singular ∧ m.inverse.outcome ≠ .error .singular := by
  intro m
  have hsize : (3 : ℕ) < 2 ^ 31 := by
    norm_num
  have hrun : ((randomUnimodular 3).run (WordStream.cycle #[0, 0xffffffff])).1 = m := by
    decide +kernel
  have hexact := randomUnimodular_exact hsize (WordStream.cycle #[0, 0xffffffff])
  rw [hrun] at hexact
  obtain ⟨hm, -, -, -, hbound, hdet, houtcome, hsolve, hinverse⟩ := hexact
  exact ⟨hsize, hrun, hm, (hbound 2 2 (by decide) (by decide)).2, hdet, houtcome, hsolve _,
    hinverse⟩

end Mat

end ExactLinAlg
