import ExactLinAlg.Mat.Product
import ExactLinAlg.Proofs.Entries

/-!
# The product is exact

An entry of a product is a sum that `Mat.accumulate` adds up, and the product of a row and a column
is the same sum, added up in the same order (`Mat.accumulate_eq_dot`). So it does not matter whether
a product is found row by row, column by column or entry by entry: each way gives the matrix of
these sums (`Mat.IsMul`), or fails because one of them does (`Mat.MulFails`).
-/

namespace ExactLinAlg

open Matrix

theorem Vec.value_set {v : Vec} {j : ℕ} (hj : j < v.length) (x : Fraction) :
    value (List.set v j x) = Function.update (value v) j x.toRat := by
  funext b
  rw [value, List.getD_eq_getElem?_getD]
  by_cases hb : b = j
  · subst hb
    rw [List.getElem?_set_self hj, Function.update_self]
    rfl
  · rw [List.getElem?_set_ne (Ne.symm hb), Function.update_of_ne hb, value,
      List.getD_eq_getElem?_getD]

namespace Mat

/-- `p` has the entries that are added up for the product of `m` and `n`. -/
structure IsMul (m n p : Mat) : Prop where
  wellFormed : p.WellFormed
  rows : p.rows = m.rows
  cols : p.cols = n.cols
  value : ∀ i, i < m.rows → ∀ j, j < n.cols →
    ∃ x, m.accumulate n i j = .ok x ∧ p.value i j = x.toRat

/-- An entry of the product of `m` and `n` cannot be added up, for the reason `e`. -/
def MulFails (m n : Mat) (e : Error) : Prop :=
  ∃ i, i < m.rows ∧ ∃ j, j < n.cols ∧ m.accumulate n i j = .error e

section Product

variable {m n : Mat} (hm : m.WellFormed) (hn : n.WellFormed) (hdims : m.cols = n.rows)

/-! ## One entry -/

section Entry

variable {i j : ℕ} (hi : i < m.rows) (hj : j < n.cols)
include hm hn hdims hi hj

theorem ends_accumulate :
    Ends Error.IsOverflow
      (fun x => x.toRat = ∑ k ∈ Finset.range m.cols, m.value i k * n.value k j)
      (m.accumulate n i j) := by
  apply Ends.foldlM_range (I := fun c (x : Fraction) =>
    x.toRat = ∑ k ∈ Finset.range c, m.value i k * n.value k j)
  · exact Fraction.toRat_zero
  · intro k hk sum hsum
    apply (hm.ends_entry hi hk).bind
    intro left hleft
    apply (hn.ends_entry (hdims ▸ hk) hj).bind
    intro right hright
    apply (Fraction.ends_mul left right).bind
    intro p hp
    apply (Fraction.ends_add sum p).imp
    intro x hx
    rw [hx, hsum, hp, hleft, hright, Finset.sum_range_succ]

/-- An entry is the product of a row and a column. -/
theorem accumulate_eq_dot (hlt : i < m.data.length) :
    m.accumulate n i j = Vec.dot m.data[i] (n.column j) := by
  have hlen : m.data[i].length = m.cols := hm.length_row _ (List.getElem_mem hlt)
  have hlen' : (n.column j).length = m.cols := by
    rw [column, List.length_map, hn.length_data, hdims]
  have hzip : m.data[i].zip (n.column j) =
      (List.range m.cols).map fun k => (m.data[i].getD k 0, (n.column j).getD k 0) := by
    apply List.ext_getElem
    · simp [hlen, hlen']
    · intro k hk hk'
      rw [List.length_map, List.length_range] at hk'
      rw [List.getElem_zip, List.getElem_map, List.getElem_range,
        List.getD_eq_getElem _ _ (hlen.symm ▸ hk'), List.getD_eq_getElem _ _ (hlen'.symm ▸ hk')]
  rw [Vec.dot, checkDims, if_pos (hlen.trans hlen'.symm), hzip]
  show _ = List.foldlM _ _ _
  rw [List.foldlM_map]
  apply foldlM_congr
  intro sum k hk
  have hk := List.mem_range.1 hk
  have hleft : m.value i k = (m.data[i].getD k 0).toRat := congrFun (value_of_lt hlt) k
  rw [entry_eq_ok hm hk hi hleft, entry_eq_ok hn hj (hdims ▸ hk) (value_column n k j).symm]
  rfl

end Entry

/-! ## The whole product -/

namespace IsMul

variable {p q : Mat}

theorem unique (h : IsMul m n p) (h' : IsMul m n q) : p = q := by
  apply ext_value h.wellFormed h'.wellFormed (h.rows.trans h'.rows.symm) (h.cols.trans h'.cols.symm)
  intro i j
  rcases Nat.lt_or_ge i m.rows with hi | hi
  · rcases Nat.lt_or_ge j n.cols with hj | hj
    · obtain ⟨x, hx, hvalue⟩ := h.value i hi j hj
      obtain ⟨y, hy, hvalue'⟩ := h'.value i hi j hj
      cases hx.symm.trans hy
      rw [hvalue, hvalue']
    · rw [h.wellFormed.value_of_cols_le i (h.cols.trans_le hj),
        h'.wellFormed.value_of_cols_le i (h'.cols.trans_le hj)]
  · rw [h.wellFormed.value_of_rows_le (h.rows.trans_le hi),
      h'.wellFormed.value_of_rows_le (h'.rows.trans_le hi)]

theorem not_mulFails (h : IsMul m n p) (e : Error) : ¬ MulFails m n e := by
  rintro ⟨i, hi, j, hj, hfails⟩
  obtain ⟨x, hx, -⟩ := h.value i hi j hj
  cases hx.symm.trans hfails

end IsMul

include hm hn hdims

theorem error_of_mulFails {e : Error} (h : MulFails m n e) : e = .overflow := by
  obtain ⟨i, hi, j, hj, hfails⟩ := h
  exact (ends_accumulate hm hn hdims hi hj).of_error hfails

/-- Two ways to find a product end alike. -/
theorem eq_of_ends_mul {x y : Except Error Mat} (hx : Ends (MulFails m n) (IsMul m n) x)
    (hy : Ends (MulFails m n) (IsMul m n) y) : x = y := by
  cases x with
  | ok p =>
    cases y with
    | ok q => rw [IsMul.unique hx hy]
    | error e => exact absurd hy (hx.not_mulFails e)
  | error e =>
    cases y with
    | ok q => exact absurd hx (hy.not_mulFails e)
    | error e' => rw [error_of_mulFails hm hn hdims hx, error_of_mulFails hm hn hdims hy]

/-- One column. -/
theorem ends_mulVec_column {j : ℕ} (hj : j < n.cols) :
    Ends (fun e => ∃ i, i < m.rows ∧ m.accumulate n i j = .error e)
      (fun v => v.length = m.rows ∧
        ∀ i, i < m.rows → ∃ x, m.accumulate n i j = .ok x ∧ Vec.value v i = x.toRat)
      (m.mulVec (n.column j)) := by
  have hlen : m.cols = (n.column j).length := by
    rw [column, List.length_map, hn.length_data, hdims]
  rw [mulVec, checkDims, if_pos hlen]
  apply (Ends.mapM_getElem (fun row => Vec.dot row (n.column j)) m.data).mono
  · rintro e ⟨i, hi, hfails⟩
    have hir : i < m.rows := hm.length_data ▸ hi
    exact ⟨i, hir, (accumulate_eq_dot hm hn hdims hir hj hi).trans hfails⟩
  · rintro v ⟨hv, hdots⟩
    refine ⟨hv.trans hm.length_data, fun i hir => ?_⟩
    have hi : i < m.data.length := hm.length_data.symm ▸ hir
    have hiv : i < v.length := hv.symm ▸ hi
    exact ⟨v[i], (accumulate_eq_dot hm hn hdims hir hj hi).trans (hdots i hi hiv),
      Vec.value_of_lt hiv⟩

/-- One row. -/
theorem ends_mapM_dot {i : ℕ} (hi : i < m.data.length) :
    Ends (MulFails m n)
      (fun u => u.length = n.cols ∧
        ∀ j, j < n.cols → ∃ x, m.accumulate n i j = .ok x ∧ Vec.value u j = x.toRat)
      (((List.range n.cols).map n.column).mapM (Vec.dot m.data[i])) := by
  have hir : i < m.rows := hm.length_data ▸ hi
  apply (Ends.mapM_getElem (Vec.dot m.data[i]) _).mono
  · rintro e ⟨j, hj, hfails⟩
    rw [List.getElem_map, List.getElem_range] at hfails
    rw [List.length_map, List.length_range] at hj
    exact ⟨i, hir, j, hj, (accumulate_eq_dot hm hn hdims hir hj hi).trans hfails⟩
  · rintro u ⟨hu, hdots⟩
    rw [List.length_map, List.length_range] at hu
    refine ⟨hu, fun j hj => ?_⟩
    have hju : j < u.length := hu.symm ▸ hj
    have hdot := hdots j (by simpa using hj) hju
    rw [List.getElem_map, List.getElem_range] at hdot
    exact ⟨u[j], (accumulate_eq_dot hm hn hdims hir hj hi).trans hdot, Vec.value_of_lt hju⟩

/-- Row by row. -/
theorem ends_mul : Ends (MulFails m n) (IsMul m n) (m.mul n) := by
  have hrow := fun i (hi : i < m.data.length) => ends_mapM_dot hm hn hdims hi
  rw [mul, checkDims, if_pos hdims]
  apply ((Ends.mapM_getElem _ m.data).weaken ?_).bind
  · rintro data ⟨hlen, hrows⟩
    apply Ends.pure
    refine ⟨⟨hlen.trans hm.length_data, ?_⟩, rfl, rfl, ?_⟩
    · intro row hmem
      obtain ⟨i, hi, rfl⟩ := List.getElem_of_mem hmem
      have hi' : i < m.data.length := hlen ▸ hi
      exact ((hrow i hi').of_ok (hrows i hi' hi)).1
    · intro i hir j hj
      have hi : i < m.data.length := hm.length_data.symm ▸ hir
      have hi' : i < data.length := hlen.symm ▸ hi
      rw [value_of_lt hi']
      exact ((hrow i hi).of_ok (hrows i hi hi')).2 j hj
  · rintro e ⟨i, hi, hfails⟩
    exact (hrow i hi).of_error hfails

/-! ## Entry by entry -/

omit hm hn hdims in
theorem ends_setEntry {p : Mat} (hp : p.WellFormed) {i j : ℕ} (hi : i < p.rows) (hj : j < p.cols)
    (x : Fraction) {E : Error → Prop} :
    Ends E (fun q => q.WellFormed ∧ q.rows = p.rows ∧ q.cols = p.cols ∧
        q.value = Function.update p.value i (Function.update (p.value i) j x.toRat))
      (p.setEntry i j x) := by
  apply (hp.ends_line hi).bind
  rintro row ⟨hlen, hrow⟩
  have hjlen : j < row.length := hlen.symm ▸ hj
  rw [Vec.setEntry, if_pos hjlen]
  apply Ends.pure
  refine ⟨hp.withLine i ((List.length_set ..).trans hlen), rfl, rfl, ?_⟩
  rw [hp.value_withLine hi, Vec.value_set hjlen, hrow]

omit hm hn hdims in
/-- The rows before `i`, and the first `j` entries of row `i`, are those of the product. -/
structure Filled (m n : Mat) (i j : ℕ) (p : Mat) : Prop where
  wellFormed : p.WellFormed
  rows : p.rows = m.rows
  cols : p.cols = n.cols
  value : ∀ a b, b < n.cols → a < i ∨ a = i ∧ b < j →
    ∃ x, m.accumulate n a b = .ok x ∧ p.value a b = x.toRat

omit hm hn hdims in
/-- One row. -/
theorem ends_mulRow {p : Mat} {i : ℕ} (hi : i < m.rows) (h : Filled m n i 0 p) :
    Ends (MulFails m n) (Filled m n (i + 1) 0) (m.mulRow n p i) := by
  have hrun : Ends (MulFails m n) (Filled m n i n.cols) (m.mulRow n p i) := by
    apply Ends.foldlM_range (I := Filled m n i) h
    intro j hj q hq
    have hentry := (Ends.outcome (m.accumulate n i j)).weaken (F := MulFails m n)
      fun e he => ⟨i, hi, j, hj, he⟩
    apply hentry.bind
    intro x hx
    apply (ends_setEntry hq.wellFormed (hq.rows.symm ▸ hi) (hq.cols.symm ▸ hj) x).imp
    rintro q' ⟨hwf, hrows, hcols, hvalue⟩
    refine ⟨hwf, hrows.trans hq.rows, hcols.trans hq.cols, ?_⟩
    intro a b hb hab
    rw [hvalue]
    by_cases hai : a = i
    · subst hai
      rw [Function.update_self]
      by_cases hbj : b = j
      · subst hbj
        exact ⟨x, hx, Function.update_self ..⟩
      · rw [Function.update_of_ne hbj]
        exact hq.value a b hb (by omega)
    · rw [Function.update_of_ne hai]
      exact hq.value a b hb (by omega)
  apply hrun.imp
  intro q hq
  exact ⟨hq.wellFormed, hq.rows, hq.cols, fun a b hb hab => hq.value a b hb (by omega)⟩

omit hm hn in
theorem ends_mulByEntries : Ends (MulFails m n) (IsMul m n) (m.mulByEntries n) := by
  rw [mulByEntries, checkDims, if_pos hdims]
  have hstart : Filled m n 0 0 (zeros m.rows n.cols) :=
    ⟨wellFormed_zeros m.rows n.cols, rfl, rfl, by omega⟩
  have hrun := Ends.foldlM_range (E := MulFails m n) (n := m.rows)
    (I := fun i p => Filled m n i 0 p) (f := m.mulRow n) hstart
    fun i hi p hp => ends_mulRow hi hp
  apply hrun.imp
  intro p hp
  exact ⟨hp.wellFormed, hp.rows, hp.cols, fun i hi j hj => hp.value i j hj (Or.inl hi)⟩

/-! ## Columns -/

theorem mul_eq_ok {p : Mat} (h : IsMul m n p) : m.mul n = .ok p :=
  eq_of_ends_mul hm hn hdims (ends_mul hm hn hdims) (y := .ok p) h

/-- The columns of a product are products with the columns. -/
theorem mulVec_column_eq_ok {p : Mat} (h : IsMul m n p) {j : ℕ} (hj : j < n.cols) :
    m.mulVec (n.column j) = .ok (p.column j) := by
  have hrun := ends_mulVec_column hm hn hdims hj
  cases hv : m.mulVec (n.column j) with
  | error e =>
    obtain ⟨i, hi, hfails⟩ := hrun.of_error hv
    exact absurd ⟨i, hi, j, hj, hfails⟩ (h.not_mulFails e)
  | ok v =>
    obtain ⟨hlen, hvalues⟩ := hrun.of_ok hv
    have hcolumn : (p.column j).length = m.rows := by
      rw [column, List.length_map, h.wellFormed.length_data, h.rows]
    congr 1
    apply Vec.ext_value (hlen.trans hcolumn.symm)
    intro i
    rw [value_column]
    rcases Nat.lt_or_ge i m.rows with hi | hi
    · obtain ⟨x, hx, hvalue⟩ := hvalues i hi
      obtain ⟨y, hy, hvalue'⟩ := h.value i hi j hj
      cases hx.symm.trans hy
      rw [hvalue, hvalue']
    · rw [Vec.value_of_le (hlen.trans_le hi), h.wellFormed.value_of_rows_le (h.rows.trans_le hi)]

theorem exists_mul_iff :
    (∃ p, m.mul n = .ok p) ↔ ∀ j, j < n.cols → ∃ v, m.mulVec (n.column j) = .ok v := by
  have hrun := ends_mul hm hn hdims
  constructor
  · rintro ⟨p, hp⟩ j hj
    exact ⟨p.column j, mulVec_column_eq_ok hm hn hdims (hrun.of_ok hp) hj⟩
  · intro h
    cases hp : m.mul n with
    | ok p => exact ⟨p, rfl⟩
    | error e =>
      obtain ⟨i, hi, j, hj, hfails⟩ := hrun.of_error hp
      obtain ⟨v, hv⟩ := h j hj
      obtain ⟨x, hx, -⟩ := ((ends_mulVec_column hm hn hdims hj).of_ok hv).2 i hi
      cases hx.symm.trans hfails

end Product

/-! ## Associativity and the identity -/

protected theorem mul_assoc {l m n p q r s : Mat} (hl : l.WellFormed) (hm : m.WellFormed)
    (hn : n.WellFormed) (hp : l.mul m = .ok p) (hq : m.mul n = .ok q) (hr : p.mul n = .ok r)
    (hs : l.mul q = .ok s) : r = s := by
  obtain ⟨hpwf, hprows, hpcols⟩ := hl.of_mul hp
  obtain ⟨hqwf, hqrows, hqcols⟩ := hm.of_mul hq
  obtain ⟨hrwf, hrrows, hrcols⟩ := hpwf.of_mul hr
  obtain ⟨hswf, hsrows, hscols⟩ := hl.of_mul hs
  obtain ⟨_, hdims, -⟩ := bind_eq_ok_iff.1 hp
  have hdims := checkDims_eq_ok_iff.1 hdims
  apply ext_toMatrix hrwf (hrrows.trans hprows) hrcols hswf hsrows (hscols.trans hqcols)
  have hp := toMatrix_of_mul hl hm hp
  have hq := toMatrix_of_mul hm hn hq
  have hr := toMatrix_of_mul hpwf hn hr
  have hs := toMatrix_of_mul hl hqwf hs
  rw [hprows, hpcols, hp] at hr
  rw [hqcols, hdims, hq] at hs
  rw [hr, hs, hdims, Matrix.mul_assoc]

/-- Adding up zeros and one fraction. -/
theorem foldlM_add_single {c k : ℕ} (hk : k < c) {x : Fraction}
    {f : Fraction → ℕ → Except Error Fraction}
    (hf : ∀ sum i, i < c → f sum i = Fraction.add sum (if i = k then x else 0)) :
    (List.range c).foldlM f 0 = .ok x := by
  have hrun := Ends.foldlM_range (E := Error.Never) (n := c) (f := f) (s := 0)
    (I := fun i sum => sum = if k < i then x else 0) rfl ?_
  · obtain ⟨sum, hsum, hx⟩ := hrun.exists_ok
    rw [hsum, hx, if_pos hk]
  · rintro i hi _ rfl
    rw [hf _ i hi]
    rcases Nat.lt_trichotomy i k with hik | rfl | hik
    · rw [if_neg hik.ne, if_neg (Nat.lt_asymm hik), if_neg (by omega), Fraction.add_zero]
      rfl
    · rw [if_pos rfl, if_neg (Nat.lt_irrefl i), if_pos (Nat.lt_succ_self i), Fraction.zero_add]
      rfl
    · rw [if_neg hik.ne', if_pos hik, if_pos (by omega), Fraction.add_zero]
      rfl

theorem entry_identity {c i j : ℕ} (hi : i < c) (hj : j < c) :
    (identity c).entry i j = .ok (if i = j then 1 else 0) := by
  apply entry_eq_ok (wellFormed_identity c) hj hi
  rw [value_identity]
  split_ifs <;> simp_all

section Identity

variable {m : Mat} (hm : m.WellFormed) {i j : ℕ} (hi : i < m.rows) (hj : j < m.cols)
include hm hi hj

theorem accumulate_identity : m.accumulate (identity m.cols) i j = m.entry i j := by
  obtain ⟨x, hx, -⟩ := (hm.ends_entry hi hj).exists_ok
  rw [hx]
  apply foldlM_add_single hj
  intro sum k hk
  obtain ⟨y, hy, -⟩ := (hm.ends_entry hi hk).exists_ok
  rw [hy, entry_identity hk hj]
  by_cases hkj : k = j
  · subst hkj
    cases hx.symm.trans hy
    rw [if_pos rfl, if_pos rfl]
    show (Fraction.mul x 1 >>= _) = _
    rw [Fraction.mul_one]
    rfl
  · rw [if_neg hkj, if_neg hkj]
    show (Fraction.mul y 0 >>= _) = _
    rw [Fraction.mul_zero]
    rfl

theorem identity_accumulate : (identity m.rows).accumulate m i j = m.entry i j := by
  obtain ⟨x, hx, -⟩ := (hm.ends_entry hi hj).exists_ok
  rw [hx]
  apply foldlM_add_single (c := (identity m.rows).cols) hi
  intro sum k hk
  obtain ⟨y, hy, -⟩ := (hm.ends_entry (i := k) hk hj).exists_ok
  rw [hy, entry_identity hi hk]
  by_cases hik : i = k
  · subst hik
    cases hx.symm.trans hy
    rw [if_pos rfl, if_pos rfl]
    show (Fraction.mul 1 x >>= _) = _
    rw [Fraction.one_mul]
    rfl
  · rw [if_neg hik, if_neg (Ne.symm hik)]
    show (Fraction.mul 0 y >>= _) = _
    rw [Fraction.zero_mul]
    rfl

end Identity

section Laws

variable {m : Mat} (hm : m.WellFormed)
include hm

theorem mul_identity : m.mul (identity m.cols) = .ok m := by
  apply mul_eq_ok hm (wellFormed_identity _) rfl
  refine ⟨hm, rfl, rfl, fun i hi j hj => ?_⟩
  rw [accumulate_identity hm hi hj]
  obtain ⟨x, hx, hvalue⟩ := (hm.ends_entry hi hj).exists_ok
  exact ⟨x, hx, hvalue.symm⟩

theorem identity_mul : (identity m.rows).mul m = .ok m := by
  apply mul_eq_ok (wellFormed_identity _) hm rfl
  refine ⟨hm, rfl, rfl, fun i hi j hj => ?_⟩
  rw [identity_accumulate hm hi hj]
  obtain ⟨x, hx, hvalue⟩ := (hm.ends_entry hi hj).exists_ok
  exact ⟨x, hx, hvalue.symm⟩

end Laws

/-- **The product.** The product of two matrices is the same row by row and entry by entry. There
is one exactly if the first matrix has a product with each column of the second, and then it has
these as its columns and exact sums of products as its entries; otherwise something overflows. So
multiplication is associative, as far as it succeeds, and an identity is always neutral. -/
theorem product_exact {m n : Mat} (hm : m.WellFormed) (hn : n.WellFormed)
    (hdims : m.cols = n.rows) :
    m.mulByEntries n = m.mul n ∧
    ((∃ p, m.mul n = .ok p) ↔ ∀ j, j < n.cols → ∃ v, m.mulVec (n.column j) = .ok v) ∧
    (∀ p, m.mul n = .ok p → p.WellFormed ∧ p.rows = m.rows ∧ p.cols = n.cols ∧
      (∀ j, j < n.cols → m.mulVec (n.column j) = .ok (p.column j)) ∧
      ∀ i, i < m.rows → ∀ j, j < n.cols →
        p.value i j = ∑ k ∈ Finset.range m.cols, m.value i k * n.value k j) ∧
    (∀ e, m.mul n = .error e → e = .overflow) ∧
    (∀ l p q r s : Mat, l.WellFormed → m.mul n = .ok p → n.mul l = .ok q → p.mul l = .ok r →
      m.mul q = .ok s → r = s) ∧
    m.mul (identity m.cols) = .ok m ∧ (identity m.rows).mul m = .ok m := by
  have hrun := ends_mul hm hn hdims
  refine ⟨eq_of_ends_mul hm hn hdims (ends_mulByEntries hdims) hrun, exists_mul_iff hm hn hdims,
    ?_, fun e he => error_of_mulFails hm hn hdims (hrun.of_error he), ?_, mul_identity hm,
    identity_mul hm⟩
  · intro p hp
    have hmul := hrun.of_ok hp
    refine ⟨hmul.wellFormed, hmul.rows, hmul.cols,
      fun j hj => mulVec_column_eq_ok hm hn hdims hmul hj, fun i hi j hj => ?_⟩
    obtain ⟨x, hx, hvalue⟩ := hmul.value i hi j hj
    rw [hvalue, (ends_accumulate hm hn hdims hi hj).of_ok hx]
  · intro l p q r s hl hp hq hr hs
    exact Mat.mul_assoc hm hn hl hp hq hr hs

/-- The product with the second column overflows, the one with the first column does not. -/
theorem product_exact_one_by_two :
    let x : Fraction := ⟨1099511627776, 1, by decide, by decide, by decide⟩
    let y : Fraction := ⟨1099511627777, 1, by decide, by decide, by decide⟩
    let m : Mat := ⟨1, 2, [[x, 1]]⟩
    let n : Mat := ⟨2, 2, [[1, x], [1, 1]]⟩
    let l : Mat := ⟨2, 1, [[1], [1]]⟩
    let p : Mat := ⟨1, 1, [[y]]⟩
    m.WellFormed ∧ n.WellFormed ∧ l.WellFormed ∧ m.cols = n.rows ∧ m.cols = l.rows ∧
      m.mul n = .error .overflow ∧ m.mulByEntries n = .error .overflow ∧
      (¬ ∀ j, j < 2 → ∃ v, m.mulVec (n.column j) = .ok v) ∧
      m.mul l = .ok p ∧ m.mulVec (l.column 0) = .ok (p.column 0) ∧
      p.value 0 0 = ∑ k ∈ Finset.range 2, m.value 0 k * l.value k 0 ∧
      m.mul (identity 2) = .ok m := by
  intro x y m n l p
  have hm : m.WellFormed := ⟨rfl, by simp [m]⟩
  have hn : n.WellFormed := ⟨rfl, by simp [n]⟩
  have hl : l.WellFormed := ⟨rfl, by simp [l]⟩
  have hoverflow : m.mul n = .error .overflow := by
    decide +kernel
  have hp : m.mul l = .ok p := by
    decide +kernel
  obtain ⟨hentries, hcolumns, -⟩ := product_exact hm hn rfl
  obtain ⟨-, -, hproduct, -, -, hidentity, -⟩ := product_exact hm hl rfl
  obtain ⟨-, -, -, hcolumn, hvalue⟩ := hproduct p hp
  refine ⟨hm, hn, hl, rfl, rfl, hoverflow, hentries.trans hoverflow, ?_, hp,
    hcolumn 0 Nat.zero_lt_one, hvalue 0 Nat.zero_lt_one 0 Nat.zero_lt_one, hidentity⟩
  intro h
  obtain ⟨q, hq⟩ := hcolumns.2 h
  cases hoverflow.symm.trans hq

end Mat

end ExactLinAlg
