import ExactLinAlg.Proofs.Echelon

/-!
# Minors and elimination

The minors of an array of rational numbers are the determinants of its square parts. Row operations
with the rows above `s` as their sources do not change the minors that take all of these rows, up to
the factors by which rows are divided (`KeepsMinors`). If these rows have pivots, then the minor in
the columns of the pivots is triangular, and one more row and column multiply it by the entry where
they meet. So every entry of the rows from `s` on is a quotient of two minors of the array that
elimination started with, with one denominator for all of them (`KeepsMinors.overMinor`).
-/

namespace ExactLinAlg

open Matrix

/-- The determinant of the part of an array that is in the rows `f` and the columns `g`. -/
def minor (A : ℕ → ℕ → ℚ) {n : ℕ} (f g : Fin n → ℕ) : ℚ :=
  (Matrix.of fun a b => A (f a) (g b)).det

/-! ## Minors under row operations -/

section Minor

variable {W C : ℕ → ℕ → ℚ} {s n : ℕ} {f g : Fin n → ℕ}

theorem minor_update_smul (hf : Function.Injective f) (hs : ∃ a, f a = s) (w : ℚ) :
    minor (Function.update W s (w • W s)) f g = w * minor W f g := by
  obtain ⟨a, rfl⟩ := hs
  have hrow : (Matrix.of fun i j => Function.update W (f a) (w • W (f a)) (f i) (g j)) =
      updateRow (Matrix.of fun i j => W (f i) (g j)) a
        (w • (Matrix.of fun i j => W (f i) (g j)) a) := by
    ext i j
    rw [of_apply, updateRow_apply]
    split_ifs with hi
    · rw [hi, Function.update_self]
      rfl
    · rw [Function.update_of_ne (hf.ne hi)]
      rfl
  rw [minor, minor, hrow, det_updateRow_smul, updateRow_eq_self]

/-- Clearing with a row that the minor takes. -/
theorem minor_of_clears {col : ℕ} (hC : Tableau.Clears W C col s (s < ·)) (hs : ∃ a, f a = s) :
    minor C f g = minor W f g := by
  obtain ⟨a, rfl⟩ := hs
  apply det_eq_of_forall_row_eq_smul_add_const
    (fun i => if f a < f i then -(W (f i) col / W (f a) col) else 0) a
  · exact if_neg (lt_irrefl _)
  · intro i j
    simp only [of_apply]
    split_ifs with hi
    · rw [hC.target (f i) hi, Pi.sub_apply, Pi.smul_apply, smul_eq_mul, neg_mul, sub_eq_add_neg]
    · rw [hC.other (f i) hi, zero_mul, add_zero]

end Minor

/-- The minors of `W` that take all rows above `s` are minors of `A`, up to the factor `d`. Row `i`
of `W` comes from row `order i` of `A`. -/
def KeepsMinors (A W : ℕ → ℕ → ℚ) (s : ℕ) (d : ℚ) : Prop :=
  ∃ order : ℕ → ℕ, ∀ (n : ℕ) (f g : Fin n → ℕ), Function.Injective f →
    (∀ t, t < s → ∃ a, f a = t) → minor W f g * d = minor A (order ∘ f) g

namespace KeepsMinors

variable {A W C : ℕ → ℕ → ℚ} {s : ℕ} {d : ℚ}

theorem refl (A : ℕ → ℕ → ℚ) : KeepsMinors A A 0 1 :=
  ⟨id, fun _ _ _ _ _ => mul_one _⟩

theorem succ (h : KeepsMinors A W s d) : KeepsMinors A W (s + 1) d := by
  obtain ⟨order, h⟩ := h
  exact ⟨order, fun n f g hf hs => h n f g hf fun t ht => hs t (Nat.lt_succ_of_lt ht)⟩

theorem swap (h : KeepsMinors A W s d) {p : ℕ} (hp : s ≤ p) :
    KeepsMinors A ((RowOp.swap s p).act W) s d := by
  obtain ⟨order, h⟩ := h
  refine ⟨order ∘ Equiv.swap s p, fun n f g hf hs => ?_⟩
  apply h n (Equiv.swap s p ∘ f) g ((Equiv.swap s p).injective.comp hf)
  intro t ht
  obtain ⟨a, rfl⟩ := hs t ht
  exact ⟨a, Equiv.swap_apply_of_ne_of_ne (by omega) (by omega)⟩

theorem scale (h : KeepsMinors A W (s + 1) d) {w : ℚ} (hw : w ≠ 0) :
    KeepsMinors A (Function.update W s (w⁻¹ • W s)) (s + 1) (w * d) := by
  obtain ⟨order, h⟩ := h
  refine ⟨order, fun n f g hf hs => ?_⟩
  rw [minor_update_smul hf (hs s (Nat.lt_succ_self s)), ← h n f g hf hs]
  field_simp

theorem clear (h : KeepsMinors A W (s + 1) d) {col : ℕ}
    (hC : Tableau.Clears W C col s (s < ·)) : KeepsMinors A C (s + 1) d := by
  obtain ⟨order, h⟩ := h
  refine ⟨order, fun n f g hf hs => ?_⟩
  rw [minor_of_clears hC (hs s (Nat.lt_succ_self s)), h n f g hf hs]

end KeepsMinors

/-! ## Pivots -/

/-- The rows above `s` have pivots in the columns `c`, with zeros below. -/
structure HasPivots (W : ℕ → ℕ → ℚ) (s : ℕ) (c : ℕ → ℕ) : Prop where
  ne_zero : ∀ t, t < s → W t (c t) ≠ 0
  below : ∀ t, t < s → ∀ i, t < i → W i (c t) = 0

theorem Staircase.hasPivots {W : ℕ → ℕ → ℚ} {k : ℕ} {pivots : List ℕ}
    (h : Staircase W k pivots) : HasPivots W pivots.length (pivots.getD · 0) := by
  constructor
  · intro t ht
    rw [List.getD_eq_getElem _ _ ht, h.pivot t ht]
    exact one_ne_zero
  · intro t ht i hi
    rw [List.getD_eq_getElem _ _ ht]
    exact h.below ht hi

namespace HasPivots

variable {W : ℕ → ℕ → ℚ} {s : ℕ} {c : ℕ → ℕ} (h : HasPivots W s c)
include h

theorem prod_ne_zero : ∏ t ∈ Finset.range s, W t (c t) ≠ 0 :=
  Finset.prod_ne_zero_iff.2 fun t ht => h.ne_zero t (Finset.mem_range.1 ht)

theorem minor_eq : minor W (fun a : Fin s => (a : ℕ)) (fun b : Fin s => c b) =
    ∏ t ∈ Finset.range s, W t (c t) := by
  have hupper : (Matrix.of fun a b : Fin s => W a (c b)).IsUpperTriangular :=
    fun a b hab => h.below b b.isLt a hab
  rw [minor, det_of_isUpperTriangular hupper, Finset.prod_range]
  rfl

/-- One more row and one more column. -/
theorem minor_update {i : ℕ} (hi : s ≤ i) (j : ℕ) :
    minor W (fun a : Fin (s + 1) => Function.update id s i a)
      (fun b : Fin (s + 1) => Function.update c s j b) =
      (∏ t ∈ Finset.range s, W t (c t)) * W i j := by
  have hlt : ∀ b : ℕ, b < s → Function.update id s i b = b ∧ Function.update c s j b = c b :=
    fun b hb => ⟨Function.update_of_ne hb.ne _ _, Function.update_of_ne hb.ne _ _⟩
  have hupper : (Matrix.of fun a b : Fin (s + 1) =>
      W (Function.update id s i a) (Function.update c s j b)).IsUpperTriangular := by
    intro a b hab
    have hab : (b : ℕ) < a := hab
    have hbs : (b : ℕ) < s := by omega
    rw [of_apply, (hlt b hbs).2]
    rcases Nat.lt_succ_iff_lt_or_eq.1 a.isLt with has | has
    · rw [(hlt a has).1]
      exact h.below b hbs a hab
    · rw [has, Function.update_self]
      exact h.below b hbs i (hbs.trans_le hi)
  rw [minor, det_of_isUpperTriangular hupper, Fin.prod_univ_castSucc, Finset.prod_range]
  congr 1
  · apply Finset.prod_congr rfl
    intro t _
    rw [of_apply, Fin.val_castSucc, (hlt t t.isLt).1, (hlt t t.isLt).2]
  · rw [of_apply, Fin.val_last, Function.update_self, Function.update_self]

end HasPivots

namespace KeepsMinors

variable {A W : ℕ → ℕ → ℚ} {s : ℕ} {d : ℚ} {c : ℕ → ℕ} (h : KeepsMinors A W s d)
  (hW : HasPivots W s c)
include h hW

/-- The product of the pivots is a minor of `A`, up to the factor. -/
theorem exists_prod_eq :
    ∃ f : Fin s → ℕ, (∏ t ∈ Finset.range s, W t (c t)) * d = minor A f fun b => c b := by
  obtain ⟨order, h⟩ := h
  have hminor := h s (fun a => a) (fun b => c b) Fin.val_injective fun t ht => ⟨⟨t, ht⟩, rfl⟩
  rw [hW.minor_eq] at hminor
  exact ⟨_, hminor⟩

/-- The entries from row `s` on are quotients of a minor of `A` by one minor of `A`. -/
theorem overMinor (hd : d ≠ 0) :
    ∃ f g : Fin s → ℕ, minor A f g ≠ 0 ∧ ∀ i, s ≤ i → ∀ j, ∃ f' g' : Fin (s + 1) → ℕ,
      W i j * minor A f g = minor A f' g' := by
  obtain ⟨f, hden⟩ := h.exists_prod_eq hW
  refine ⟨f, _, hden ▸ mul_ne_zero hW.prod_ne_zero hd, fun i hi j => ?_⟩
  obtain ⟨order, h⟩ := h
  have hinj : Function.Injective fun a : Fin (s + 1) => Function.update id s i (a : ℕ) := by
    intro a b hab
    simp only [Function.update_apply, id_eq] at hab
    split_ifs at hab <;> omega
  -- the rows of the pivots and row `i`, in the columns of the pivots and column `j`
  have hnum := h (s + 1) (fun a => Function.update id s i a) (fun b => Function.update c s j b) hinj
    fun t ht => ⟨⟨t, Nat.lt_succ_of_lt ht⟩, Function.update_of_ne ht.ne _ _⟩
  rw [hW.minor_update hi] at hnum
  refine ⟨_, _, Eq.trans ?_ hnum⟩
  rw [← hden]
  ring

end KeepsMinors

/-! ## Small minors -/

/-- The minors are integers of absolute value at most `b`. -/
def MinorsWithin (A : ℕ → ℕ → ℚ) (b : ℕ) : Prop :=
  ∀ (n : ℕ) (f g : Fin n → ℕ), ∃ z : ℤ, minor A f g = z ∧ |z| ≤ b

theorem exists_int_minor {A : ℕ → ℕ → ℚ} (h : ∀ i j, ∃ z : ℤ, A i j = z) {n : ℕ}
    (f g : Fin n → ℕ) : ∃ z : ℤ, minor A f g = z := by
  choose z hz using h
  refine ⟨(Matrix.of fun a b => z (f a) (g b)).det, ?_⟩
  rw [Int.cast_det, minor]
  congr 1
  ext a b
  exact hz (f a) (g b)

/-- The order of the rows and of the columns changes the sign at most. -/
theorem abs_minor_comp (A : ℕ → ℕ → ℚ) {n : ℕ} (f g : Fin n → ℕ) (e e' : Equiv.Perm (Fin n)) :
    |minor A (f ∘ e) (g ∘ e')| = |minor A f g| :=
  abs_det_submatrix_equiv_equiv e e' (Matrix.of fun a b => A (f a) (g b))

section Support

variable {A : ℕ → ℕ → ℚ} {r c n : ℕ} (hrows : ∀ i, r ≤ i → ∀ j, A i j = 0)
  (hcols : ∀ i j, c ≤ j → A i j = 0) {f g : Fin n → ℕ}
include hrows hcols

/-- A minor that is not zero takes every row and every column at most once, and none outside. -/
theorem selections_of_minor_ne_zero (h : minor A f g ≠ 0) :
    (Function.Injective f ∧ ∀ a, f a < r) ∧ Function.Injective g ∧ ∀ b, g b < c := by
  refine ⟨⟨?_, ?_⟩, ?_, ?_⟩
  · intro a a' haa
    by_contra hne
    apply h
    apply det_zero_of_row_eq hne
    ext b
    rw [of_apply, of_apply, haa]
  · intro a
    by_contra hle
    exact h (det_eq_zero_of_row_eq_zero a fun b => hrows (f a) (Nat.not_lt.1 hle) (g b))
  · intro b b' hbb
    by_contra hne
    apply h
    apply det_zero_of_column_eq hne
    intro a
    rw [of_apply, of_apply, hbb]
  · intro b
    by_contra hle
    exact h (det_eq_zero_of_column_eq_zero b fun a => hcols (f a) (g b) (Nat.not_lt.1 hle))

/-- It is enough to bound the minors with increasing rows and columns. -/
theorem abs_minor_le {x : ℚ} (hx : 0 ≤ x)
    (h : ∀ (f : Fin n → Fin r) (g : Fin n → Fin c), StrictMono f → StrictMono g →
      |minor A (fun a => f a) (fun b => g b)| ≤ x) : |minor A f g| ≤ x := by
  by_cases hzero : minor A f g = 0
  · rwa [hzero, abs_zero]
  obtain ⟨⟨hf, hfr⟩, hg, hgc⟩ := selections_of_minor_ne_zero hrows hcols hzero
  have hmono : ∀ {k : ℕ} {e : Fin n → ℕ} (he : Function.Injective e) (hlt : ∀ a, e a < k),
      StrictMono fun a => (⟨e (Tuple.sort e a), hlt _⟩ : Fin k) :=
    fun {k e} he hlt => (Tuple.monotone_sort e).strictMono_of_injective
      (he.comp (Tuple.sort e).injective)
  have hsorted := h _ _ (hmono hf hfr) (hmono hg hgc)
  exact (abs_minor_comp A f g (Tuple.sort f) (Tuple.sort g)).symm.trans_le hsorted

end Support

theorem Mat.exists_int_value {m : Mat} (hint : ∀ row ∈ m.data, ∀ x ∈ row, x.den = 1)
    (i j : ℕ) : ∃ z : ℤ, m.value i j = z := by
  rcases Nat.lt_or_ge i m.data.length with hi | hi
  · rw [value_of_lt hi]
    rcases Nat.lt_or_ge j m.data[i].length with hj | hj
    · rw [Vec.value_of_lt hj]
      have hden := hint _ (List.getElem_mem hi) _ (List.getElem_mem hj)
      refine ⟨m.data[i][j].num.toInt, ?_⟩
      rw [Fraction.toRat_eq_div, hden, Int64.toInt_one, Int.cast_one, div_one]
    · exact ⟨0, by rw [Vec.value_of_le hj, Int.cast_zero]⟩
  · exact ⟨0, by rw [value_of_le hi, Int.cast_zero]⟩

/-- The minors of a matrix of integers, from those with increasing rows and columns. -/
theorem Mat.minorsWithin {m : Mat} (hm : m.WellFormed)
    (hint : ∀ row ∈ m.data, ∀ x ∈ row, x.den = 1) {b : ℕ}
    (h : ∀ (n : ℕ) (f : Fin n → Fin m.rows) (g : Fin n → Fin m.cols), StrictMono f → StrictMono g →
      |((m.toMatrix m.rows m.cols).submatrix f g).det| ≤ b) : MinorsWithin m.value b := by
  intro n f g
  obtain ⟨z, hz⟩ := exists_int_minor (exists_int_value hint) f g
  refine ⟨z, hz, ?_⟩
  have habs := abs_minor_le (fun i hi j => hm.value_of_rows_le hi j)
    (fun i j hj => hm.value_of_cols_le i hj) (f := f) (g := g) (Nat.cast_nonneg b) (h n)
  rw [hz] at habs
  exact_mod_cast habs

end ExactLinAlg
