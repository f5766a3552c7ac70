import ExactLinAlg.Mat.WellFormed
import ExactLinAlg.Proofs.Arithmetic
import Mathlib

/-!
# The rational numbers in vectors and matrices

`Vec.value` and `Mat.value` read the entries of a vector and a matrix as rational numbers, with
zeros at the positions outside, so a row operation can be stated for whole rows without bounds.
`Vec.toVector` and `Mat.toMatrix` restrict them to a shape. The operations of the library compute
the exact operations on these numbers, as far as they do not overflow.
-/

namespace ExactLinAlg

open Matrix

/-- A computation for each element of a list fails at one of them, or its results stand in the order
of the elements. -/
theorem Ends.mapM_getElem {α β : Type} (f : α → Except Error β) (l : List α) :
    Ends (fun e => ∃ i, ∃ h : i < l.length, f l[i] = .error e)
      (fun r => r.length = l.length ∧
        ∀ i (h : i < l.length) (h' : i < r.length), f l[i] = .ok r[i])
      (l.mapM f) := by
  apply (Ends.mapM_outcomes f l).mono
  · rintro e ⟨a, ha, hfails⟩
    obtain ⟨i, hi, rfl⟩ := List.getElem_of_mem ha
    exact ⟨i, hi, hfails⟩
  · intro r hr
    exact ⟨hr.length_eq.symm, (List.forall₂_iff_get.1 hr).2⟩

theorem getElem_of_mapM {α β : Type} {f : α → Except Error β} {l : List α} {r : List β}
    (h : l.mapM f = .ok r) (i : ℕ) (hl : i < l.length) (hr : i < r.length) : f l[i] = .ok r[i] :=
  ((Ends.mapM_getElem f l).of_ok h).2 i hl hr

namespace Vec

/-- The values of the entries, followed by zeros. -/
def value (v : Vec) (j : ℕ) : ℚ := (v.getD j 0).toRat

/-- The first `n` values. -/
def toVector (n : ℕ) (v : Vec) : Fin n → ℚ := fun j => value v j

theorem value_of_lt {v : Vec} {j : ℕ} (h : j < v.length) : value v j = v[j].toRat := by
  rw [value, List.getD_eq_getElem v 0 h]

theorem value_of_le {v : Vec} {j : ℕ} (h : v.length ≤ j) : value v j = 0 := by
  rw [value, List.getD_eq_default v 0 h, Fraction.toRat_zero]

@[simp] theorem value_nil (j : ℕ) : value [] j = 0 := value_of_le (Nat.zero_le j)

@[simp] theorem value_cons_zero (x : Fraction) (v : Vec) : value (x :: v) 0 = x.toRat := rfl

@[simp] theorem value_cons_succ (x : Fraction) (v : Vec) (j : ℕ) :
    value (x :: v) (j + 1) = value v j := rfl

theorem value_append (v w : Vec) (j : ℕ) :
    value (v ++ w) j = if j < v.length then value v j else value w (j - v.length) := by
  split
  · next h => rw [value, value, List.getD_append v w 0 j h]
  · next h => rw [value, value, List.getD_append_right v w 0 j (Nat.le_of_not_lt h)]

/-- A vector is determined by its length and its values. -/
theorem ext_value {v w : Vec} (hlen : v.length = w.length) (h : ∀ j, value v j = value w j) :
    v = w := by
  refine List.ext_getElem hlen fun j hv hw => Fraction.toRat_injective ?_
  rw [← value_of_lt hv, ← value_of_lt hw, h]

theorem ext_toVector {n : ℕ} {v w : Vec} (hv : v.length = n) (hw : w.length = n)
    (h : v.toVector n = w.toVector n) : v = w := by
  apply ext_value (hv.trans hw.symm)
  intro j
  rcases Nat.lt_or_ge j n with hj | hj
  · exact congrFun h ⟨j, hj⟩
  · rw [value_of_le (hv.trans_le hj), value_of_le (hw.trans_le hj)]

/-! ## Operations on vectors -/

theorem ends_entry {E : Error → Prop} {v : Vec} {j : ℕ} (h : j < v.length) :
    Ends E (fun x => x.toRat = value v j) (entry v j) := by
  rw [entry, List.getElem?_eq_getElem h]
  exact (value_of_lt h).symm

theorem ends_slice {E : Error → Prop} {v : Vec} {lo hi : ℕ} (hlo : lo ≤ hi) (hhi : hi ≤ v.length) :
    Ends E (fun u => u.length = hi - lo ∧ ∀ j < hi - lo, value u j = value v (lo + j))
      (slice v lo hi) := by
  rw [slice, if_pos ⟨hlo, hhi⟩]
  have hlen : ((v.take hi).drop lo).length = hi - lo := by
    rw [List.length_drop, List.length_take, Nat.min_eq_left hhi]
  refine ⟨hlen, fun j hj => ?_⟩
  rw [value_of_lt (by rw [hlen]; exact hj), value_of_lt (by omega), List.getElem_drop,
    List.getElem_take]

/-- The result of an exact operation on the pairs of entries of two vectors. -/
theorem value_of_forall₂_zip {g : ℚ → ℚ → ℚ} (h0 : g 0 0 = 0) {v w u : Vec}
    (hlen : v.length = w.length)
    (h : List.Forall₂ (fun p c => c.toRat = g p.1.toRat p.2.toRat) (v.zip w) u) (j : ℕ) :
    value u j = g (value v j) (value w j) := by
  induction v generalizing w u j with
  | nil =>
    cases w with
    | nil =>
      cases h
      simp only [value_nil, h0]
    | cons b w => cases hlen
  | cons a v ih =>
    cases w with
    | nil => cases hlen
    | cons b w =>
      obtain ⟨c, u, hc, hu, rfl⟩ := List.forall₂_cons_left_iff.1 h
      cases j with
      | zero => exact hc
      | succ j => exact ih (Nat.succ.inj hlen) hu j

theorem ends_combine {op : Fraction → Fraction → Except Error Fraction} {g : ℚ → ℚ → ℚ}
    (h0 : g 0 0 = 0)
    (hop : ∀ a b, Ends Error.IsOverflow (fun c => c.toRat = g a.toRat b.toRat) (op a b))
    {v w : Vec} (hlen : v.length = w.length) :
    Ends Error.IsOverflow
      (fun u => u.length = v.length ∧ ∀ j, value u j = g (value v j) (value w j))
      (combine op v w) := by
  refine Ends.strengthen (P := fun u => ∀ j, value u j = g (value v j) (value w j)) ?_
    fun u hu hval => ⟨(length_of_combine hu).2, hval⟩
  rw [combine, checkDims, if_pos hlen]
  exact (Ends.mapM fun p _ => hop p.1 p.2).imp fun u hu => value_of_forall₂_zip h0 hlen hu

theorem ends_addScaled {v w : Vec} (f : Fraction) (hlen : v.length = w.length) :
    Ends Error.IsOverflow
      (fun u => u.length = v.length ∧ ∀ j, value u j = value v j + f.toRat * value w j)
      (addScaled v f w) := by
  refine ends_combine (g := fun a b => a + f.toRat * b) (by simp) (fun a b => ?_) hlen
  refine (Fraction.ends_mul f b).bind fun p hp => ?_
  rw [← hp]
  exact Fraction.ends_add a p

theorem ends_scale (v : Vec) (f : Fraction) :
    Ends Error.IsOverflow (fun u => u.length = v.length ∧ ∀ j, value u j = f.toRat * value v j)
      (scale v f) := by
  refine (Ends.mapM fun a _ => Fraction.ends_mul a f).imp fun u hu => ?_
  refine ⟨hu.length_eq.symm, fun j => ?_⟩
  induction hu generalizing j with
  | nil => simp
  | cons hc _ ih =>
    cases j with
    | zero => exact hc.trans (mul_comm _ _)
    | succ j => exact ih j

theorem ends_dot {v w : Vec} (hlen : v.length = w.length) :
    Ends Error.IsOverflow
      (fun s => s.toRat = ∑ j ∈ Finset.range v.length, value v j * value w j) (dot v w) := by
  rw [dot, checkDims, if_pos hlen]
  have hzip : (v.zip w).length = v.length := by rw [List.length_zip, hlen, Nat.min_self]
  rw [← hzip]
  refine Ends.foldlM
    (I := fun i (s : Fraction) => s.toRat = ∑ j ∈ Finset.range i, value v j * value w j)
    Fraction.toRat_zero fun i hi s hs => ?_
  have hv : i < v.length := hzip ▸ hi
  refine (Fraction.ends_mul _ _).bind fun p hp => (Fraction.ends_add s p).imp fun t ht => ?_
  rw [ht, hs, hp, Finset.sum_range_succ, List.getElem_zip, value_of_lt hv,
    value_of_lt (hlen ▸ hv)]

end Vec

namespace Mat

/-- The values of the entries, surrounded by zeros. -/
def value (m : Mat) (i j : ℕ) : ℚ := Vec.value (m.data.getD i []) j

/-- The values of the first `r` rows and `c` columns. -/
def toMatrix (m : Mat) (r c : ℕ) : Matrix (Fin r) (Fin c) ℚ := Matrix.of fun i j => m.value i j

@[simp] theorem toMatrix_apply (m : Mat) {r c : ℕ} (i : Fin r) (j : Fin c) :
    m.toMatrix r c i j = m.value i j := rfl

theorem value_of_lt {m : Mat} {i : ℕ} (h : i < m.data.length) :
    m.value i = Vec.value m.data[i] := by
  funext j
  rw [value, List.getD_eq_getElem m.data [] h]

theorem value_of_le {m : Mat} {i : ℕ} (h : m.data.length ≤ i) (j : ℕ) : m.value i j = 0 := by
  rw [value, List.getD_eq_default m.data [] h, Vec.value_nil]

theorem ends_checkDims {E : Error → Prop} {expected got : ℕ} (h : expected = got) :
    Ends E (fun _ => True) (checkDims expected got) := by
  rw [checkDims, if_pos h]
  trivial

theorem ends_checkSquare {E : Error → Prop} {m : Mat} (h : m.rows = m.cols) :
    Ends E (fun _ => True) m.checkSquare := by
  rw [checkSquare, if_pos h]
  trivial

theorem checkSquare_eq_ok_iff {m : Mat} {u : Unit} : m.checkSquare = .ok u ↔ m.rows = m.cols := by
  unfold checkSquare
  split <;> simp_all

namespace WellFormed

variable {m : Mat} (hm : m.WellFormed)
include hm

theorem value_of_rows_le {i : ℕ} (h : m.rows ≤ i) (j : ℕ) : m.value i j = 0 :=
  value_of_le (by rw [hm.length_data]; exact h) j

theorem value_of_cols_le (i : ℕ) {j : ℕ} (h : m.cols ≤ j) : m.value i j = 0 := by
  by_cases hi : i < m.data.length
  · rw [value_of_lt hi]
    exact Vec.value_of_le (by rw [hm.length_row _ (List.getElem_mem hi)]; exact h)
  · exact value_of_le (Nat.le_of_not_lt hi) j

theorem ends_line {E : Error → Prop} {i : ℕ} (hi : i < m.rows) :
    Ends E (fun row => row.length = m.cols ∧ Vec.value row = m.value i) (m.line i) := by
  have hlt : i < m.data.length := by rwa [hm.length_data]
  rw [line, List.getElem?_eq_getElem hlt]
  exact ⟨hm.length_row _ (List.getElem_mem hlt), (value_of_lt hlt).symm⟩

theorem ends_entry {E : Error → Prop} {i j : ℕ} (hi : i < m.rows) (hj : j < m.cols) :
    Ends E (fun x => x.toRat = m.value i j) (m.entry i j) := by
  refine (hm.ends_line hi).bind fun row ⟨hlen, hrow⟩ => ?_
  rw [← hrow]
  exact Vec.ends_entry (by rw [hlen]; exact hj)

/-- Replacing a row. -/
theorem value_withLine {i : ℕ} (hi : i < m.rows) (row : Vec) :
    (m.withLine i row).value = Function.update m.value i (Vec.value row) := by
  have hlt : i < m.data.length := by rwa [hm.length_data]
  funext a b
  rw [value, Mat.withLine, List.getD_eq_getElem?_getD]
  by_cases ha : a = i
  · subst ha
    rw [List.getElem?_set_self hlt, Function.update_self]
    rfl
  · rw [List.getElem?_set_ne (Ne.symm ha), Function.update_of_ne ha, value,
      List.getD_eq_getElem?_getD]

end WellFormed

/-- An entry is the only fraction of its value. -/
theorem entry_eq_ok {m : Mat} (hm : m.WellFormed) {i j : ℕ} (hj : j < m.cols) (hi : i < m.rows)
    {x : Fraction} (h : m.value i j = x.toRat) : m.entry i j = .ok x := by
  obtain ⟨y, hy, hvalue⟩ := (hm.ends_entry hi hj).exists_ok
  rw [hy, Fraction.toRat_injective (hvalue.trans h)]

/-- Matrices of the same dimensions are determined by their values. -/
theorem ext_value {m n : Mat} (hm : m.WellFormed) (hn : n.WellFormed) (hr : m.rows = n.rows)
    (hc : m.cols = n.cols) (h : ∀ i j, m.value i j = n.value i j) : m = n := by
  have hlen : m.data.length = n.data.length := by rw [hm.length_data, hn.length_data, hr]
  have hdata : m.data = n.data := by
    refine List.ext_getElem hlen fun i hi hi' => ?_
    refine Vec.ext_value ?_ fun j => ?_
    · rw [hm.length_row _ (List.getElem_mem hi), hn.length_row _ (List.getElem_mem hi'), hc]
    · rw [← value_of_lt hi, ← value_of_lt hi', h]
  cases m
  cases n
  cases hr
  cases hc
  cases hdata
  rfl

/-- Matrices of the same dimensions with the same matrix of values. -/
theorem ext_toMatrix {m n : Mat} {r c : ℕ} (hm : m.WellFormed) (hmr : m.rows = r) (hmc : m.cols = c)
    (hn : n.WellFormed) (hnr : n.rows = r) (hnc : n.cols = c)
    (h : m.toMatrix r c = n.toMatrix r c) : m = n := by
  apply ext_value hm hn (hmr.trans hnr.symm) (hmc.trans hnc.symm)
  intro i j
  rcases Nat.lt_or_ge i r with hi | hi
  · rcases Nat.lt_or_ge j c with hj | hj
    · exact congrFun (congrFun h ⟨i, hi⟩) ⟨j, hj⟩
    · rw [hm.value_of_cols_le i (hmc.trans_le hj), hn.value_of_cols_le i (hnc.trans_le hj)]
  · rw [hm.value_of_rows_le (hmr.trans_le hi), hn.value_of_rows_le (hnr.trans_le hi)]

/-! ## Constructions and products -/

theorem value_identity (n i j : ℕ) : (identity n).value i j = if i < n ∧ i = j then 1 else 0 := by
  by_cases hi : i < n
  · have hlt : i < (identity n).data.length := by simpa [identity, build] using hi
    by_cases hj : j < n
    · have hjlt : j < (identity n).data[i].length := by simpa [identity, build, Vec.build] using hj
      rw [value_of_lt hlt, Vec.value_of_lt hjlt]
      by_cases hij : i = j <;> simp [identity, build, Vec.build, hij, hj]
    · rw [(wellFormed_identity n).value_of_cols_le i (Nat.le_of_not_lt hj), if_neg]
      omega
  · rw [(wellFormed_identity n).value_of_rows_le (Nat.le_of_not_lt hi), if_neg]
    omega

theorem toMatrix_identity (n : ℕ) : (identity n).toMatrix n n = 1 := by
  ext i j
  rw [toMatrix_apply, value_identity, Matrix.one_apply]
  simp [Fin.ext_iff]

theorem value_column (m : Mat) (i j : ℕ) : Vec.value (m.column j) i = m.value i j := by
  by_cases hi : i < m.data.length
  · rw [Vec.value_of_lt (by simpa [column] using hi), value_of_lt hi]
    simp [column, Vec.value]
  · rw [Vec.value_of_le (by simpa [column] using hi), value_of_le (Nat.le_of_not_lt hi)]

theorem value_transposed {m : Mat} (hm : m.WellFormed) (i j : ℕ) :
    m.transposed.value i j = m.value j i := by
  by_cases hi : i < m.cols
  · rw [value_of_lt (by simpa [transposed] using hi), ← value_column]
    simp [transposed]
  · rw [value_of_le (by simpa [transposed] using hi), hm.value_of_cols_le j (Nat.le_of_not_lt hi)]

theorem toMatrix_transposed {m : Mat} (hm : m.WellFormed) (r c : ℕ) :
    m.transposed.toMatrix r c = (m.toMatrix c r)ᵀ := by
  ext i j
  exact value_transposed hm i j

theorem value_hstack {m n p : Mat} (hm : m.WellFormed) (hn : n.WellFormed)
    (h : m.hstack n = .ok p) (i j : ℕ) :
    p.value i j = if j < m.cols then m.value i j else n.value i (j - m.cols) := by
  obtain ⟨_, hdims, h⟩ := bind_eq_ok_iff.1 h
  cases h
  have hrows := checkDims_eq_ok_iff.1 hdims
  by_cases hi : i < m.rows
  · have him : i < m.data.length := by rwa [hm.length_data]
    have hin : i < n.data.length := by rwa [hn.length_data, ← hrows]
    rw [value_of_lt (by simp [him, hin]), value_of_lt him, value_of_lt hin, List.getElem_zipWith,
      Vec.value_append, hm.length_row _ (List.getElem_mem him)]
  · have hle := Nat.le_of_not_lt hi
    rw [hm.value_of_rows_le hle, hn.value_of_rows_le (hrows ▸ hle), ite_self]
    exact value_of_le (by simp [hm.length_data, hle]) j

theorem ends_hstack {E : Error → Prop} {m n : Mat} (hm : m.WellFormed) (hn : n.WellFormed)
    (hrows : m.rows = n.rows) :
    Ends E (fun p => p.WellFormed ∧ p.rows = m.rows ∧ p.cols = m.cols + n.cols ∧
        ∀ i j, p.value i j = if j < m.cols then m.value i j else n.value i (j - m.cols))
      (m.hstack n) := by
  cases h : m.hstack n with
  | ok p =>
    obtain ⟨hp, hprows, hpcols⟩ := hm.of_hstack hn h
    exact ⟨hp, hprows, hpcols, value_hstack hm hn h⟩
  | error e =>
    rw [hstack, checkDims, if_pos hrows] at h
    cases h

/-- The sum of products that an entry of a product is. -/
theorem sum_range_value (m : Mat) {c : ℕ} (i : ℕ) (f : ℕ → ℚ) :
    ∑ j ∈ Finset.range c, m.value i j * f j = ∑ j : Fin c, m.value i j * f j :=
  Finset.sum_range fun j => m.value i j * f j

theorem toVector_of_mulVec {m : Mat} (hm : m.WellFormed) {v u : Vec} (h : m.mulVec v = .ok u) :
    u.toVector m.rows = m.toMatrix m.rows m.cols *ᵥ v.toVector m.cols := by
  obtain ⟨hv, hu⟩ := length_of_mulVec hm h
  obtain ⟨_, -, h⟩ := bind_eq_ok_iff.1 h
  ext i
  have hi : (i : ℕ) < m.data.length := by rw [hm.length_data]; exact i.isLt
  have hdot := getElem_of_mapM h i hi (by rw [hu]; exact i.isLt)
  have hlen := hm.length_row _ (List.getElem_mem hi)
  have hs := (Vec.ends_dot (hlen.trans hv.symm)).of_ok hdot
  rw [hlen, ← value_of_lt hi, sum_range_value] at hs
  exact (Vec.value_of_lt _).trans hs

theorem toMatrix_of_mul {m n p : Mat} (hm : m.WellFormed) (hn : n.WellFormed)
    (h : m.mul n = .ok p) :
    p.toMatrix m.rows n.cols = m.toMatrix m.rows m.cols * n.toMatrix m.cols n.cols := by
  obtain ⟨hp, hrows, hcols⟩ := hm.of_mul h
  obtain ⟨_, hdims, h⟩ := bind_eq_ok_iff.1 h
  obtain ⟨data, hdata, h⟩ := bind_eq_ok_iff.1 h
  cases h
  ext i j
  have hi : (i : ℕ) < m.data.length := by rw [hm.length_data]; exact i.isLt
  have hip : (i : ℕ) < data.length := by rw [hp.length_data]; exact i.isLt
  have hjp : (j : ℕ) < data[(i : ℕ)].length := by
    rw [hp.length_row _ (List.getElem_mem hip)]
    exact j.isLt
  have hrow := getElem_of_mapM hdata i hi hip
  have hdot := getElem_of_mapM hrow j (by simp) hjp
  have hlen := hm.length_row _ (List.getElem_mem hi)
  have hcol : (n.column j).length = m.cols := by
    rw [column, List.length_map, hn.length_data, checkDims_eq_ok_iff.1 hdims]
  rw [List.getElem_map, List.getElem_range] at hdot
  have hs := (Vec.ends_dot (hlen.trans hcol.symm)).of_ok hdot
  rw [hlen, ← value_of_lt hi, sum_range_value] at hs
  simp only [value_column] at hs
  rw [toMatrix_apply, value_of_lt hip, Vec.value_of_lt hjp, hs]
  rfl

end Mat

end ExactLinAlg
