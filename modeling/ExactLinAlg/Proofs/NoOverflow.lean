import ExactLinAlg.Proofs.Determinant
import ExactLinAlg.Proofs.Minors
import ExactLinAlg.Proofs.Rank
import ExactLinAlg.Proofs.SmallNumbers

/-!
# Elimination without overflow

While elimination keeps minors, the rows that it still works on have one denominator, a minor of the
matrix at the start (`KeepsMinors.hasDenominator`). Small minors therefore bound all numbers that a
column step reads and all quotients that it forms, whichever rows the pivots come from, and the step
keeps minors again (`Tableau.fits_reduceColumn`, `Tableau.fits_triangulate`). The products of the
diagonal are minors themselves (`DiagonalWithin`).
-/

namespace ExactLinAlg

/-! ## One denominator -/

/-- The entries from row `s` on have one denominator, and their parts are at most `b`. -/
def HasDenominator (b : ℕ) (W : ℕ → ℕ → ℚ) (s : ℕ) : Prop :=
  ∃ d : ℤ, d ≠ 0 ∧ |d| ≤ b ∧ ∀ i, s ≤ i → ∀ j, ∃ n : ℤ, W i j * d = n ∧ |n| ≤ b

theorem KeepsMinors.hasDenominator {A W : ℕ → ℕ → ℚ} {b s : ℕ} {d : ℚ} {c : ℕ → ℕ}
    (hA : MinorsWithin A b) (h : KeepsMinors A W s d) (hd : d ≠ 0) (hW : HasPivots W s c) :
    HasDenominator b W s := by
  obtain ⟨f, g, hne, hentries⟩ := h.overMinor hW hd
  obtain ⟨den, hden, hdenb⟩ := hA s f g
  rw [hden] at hne hentries
  refine ⟨den, Int.cast_ne_zero.1 hne, hdenb, fun i hi j => ?_⟩
  obtain ⟨f', g', hentry⟩ := hentries i hi j
  obtain ⟨num, hnum, hnumb⟩ := hA (s + 1) f' g'
  exact ⟨num, hentry.trans hnum, hnumb⟩

namespace HasDenominator

variable {b s : ℕ} {W : ℕ → ℕ → ℚ} (h : HasDenominator b W s)
include h

theorem atMost {i : ℕ} (hi : s ≤ i) (j : ℕ) : AtMost b (W i j) := by
  obtain ⟨d, hd, hdb, hentries⟩ := h
  obtain ⟨n, hn, hnb⟩ := hentries i hi j
  exact AtMost.of_mul_eq hn hd hnb hdb

/-- The denominator cancels in a quotient. -/
theorem div {i k : ℕ} (hi : s ≤ i) (hk : s ≤ k) (j l : ℕ) (hne : W k l ≠ 0) :
    AtMost b (W i j / W k l) := by
  obtain ⟨d, hd, hdb, hentries⟩ := h
  obtain ⟨n, hn, hnb⟩ := hentries i hi j
  obtain ⟨n', hn', hnb'⟩ := hentries k hk l
  have hd' : (d : ℚ) ≠ 0 := Int.cast_ne_zero.2 hd
  apply AtMost.of_mul_eq (n := n) (d := n') _ _ hnb hnb'
  · rw [← hn, ← hn', ← mul_assoc, div_mul_cancel₀ _ hne]
  · intro h0
    rw [h0, Int.cast_zero] at hn'
    exact mul_ne_zero hne hd' hn'

theorem swap {p : ℕ} (hp : s ≤ p) : HasDenominator b ((RowOp.swap s p).act W) s := by
  obtain ⟨d, hd, hdb, hentries⟩ := h
  refine ⟨d, hd, hdb, fun i hi j => ?_⟩
  rw [RowOp.act_swap]
  apply hentries
  rw [Equiv.swap_apply_def]
  split_ifs <;> omega

theorem clearsWithin {col i : ℕ} (hne : W s col ≠ 0) (hi : s ≤ i) :
    Tableau.ClearsWithin b W col s i :=
  ⟨h.atMost hi, h.atMost le_rfl, h.div hi le_rfl col col hne⟩

/-- Dividing by the pivot forms the quotients before the column is cleared. -/
theorem clearsWithin_normalized {col i : ℕ} (hne : W s col ≠ 0) (hi : s < i) :
    Tableau.ClearsWithin b (Function.update W s ((W s col)⁻¹ • W s)) col s i := by
  have hself : ∀ j, Function.update W s ((W s col)⁻¹ • W s) s j = W s j / W s col := by
    intro j
    rw [Function.update_self, Pi.smul_apply, smul_eq_mul, div_eq_inv_mul]
  have hother : Function.update W s ((W s col)⁻¹ • W s) i = W i := Function.update_of_ne hi.ne' _ _
  constructor
  · rw [hother]
    exact h.atMost hi.le
  · intro j
    rw [hself]
    exact h.div le_rfl le_rfl j col hne
  · rw [hother, hself, div_self hne, div_one]
    exact h.atMost hi.le col

end HasDenominator

/-! ## The forward pass -/

namespace Tableau

theorem exists_opposite {b : ℕ} (e : Fraction) (_ : AtMost b e.toRat) : ∃ f, opposite e = .ok f :=
  ⟨-e, rfl⟩

section Column

variable {b : ℕ} (hb : b ^ 3 < 2 ^ 62) {A : ℕ → ℕ → ℚ} {d : ℚ} {r : ℕ} {t : Tableau}
  (ht : t.WellFormed r) (hnone : t.companion = none) {col row : ℕ} (hcol : col < t.main.cols)
include hb ht hnone hcol

/-- The fetch of a pivot keeps the denominator, and the minors that take the row of the pivot. -/
theorem fits_fetchPivot_of_keeps (hkeeps : KeepsMinors A t.main.value row d)
    (hden : HasDenominator b t.main.value row) :
    Ends Error.Never
      (fun o => ∀ u swapped, o = some (u, swapped) →
        Follows r (if swapped then -1 else 1) t u ∧ Raises t.main.value u.main.value col row ∧
          KeepsMinors A u.main.value (row + 1) d ∧ HasDenominator b u.main.value row)
      (t.fetchPivot col row).outcome := by
  apply (fits_fetchPivot hb ht hnone hcol fun i hi => hden.atMost hi col).imp
  rintro _ ho u swapped rfl
  obtain ⟨hu, p, hp, hne, hvalue⟩ := ho
  rw [hvalue]
  exact ⟨hu, raises_swap hp hne, (hkeeps.swap hp).succ, hden.swap hp⟩

/-- One column of the forward pass. -/
theorem fits_reduceColumn (hkeeps : KeepsMinors A t.main.value row d) (hd : d ≠ 0)
    (hden : HasDenominator b t.main.value row) :
    Ends Error.Never
      (fun o => ∀ u, o = some u → ∃ e, e ≠ 0 ∧ KeepsMinors A u.main.value (row + 1) e)
      (t.reduceColumn col row).outcome := by
  apply Traced.ends_bind (fits_fetchPivot_of_keeps hb ht hnone hcol hkeeps hden)
  rintro (_ | ⟨u, swapped⟩) ho
  · exact fun u hu => nomatch hu
  obtain ⟨hu, hraises, hkeeps, hden⟩ := ho u swapped rfl
  have hne := hraises.pivot_ne_zero
  have hcolu : col < u.main.cols := hu.cols ▸ hcol
  have hunone := hu.companion_eq_none hnone
  apply Traced.ends_bind (fits_normalizeRow hb hu.wellFormed hunone hcolu hne
    fun j => hden.atMost le_rfl j)
  rintro v ⟨hv, hvvalue⟩
  have hone : v.main.value row col = 1 := by
    rw [hvvalue, Function.update_self, Pi.smul_apply, smul_eq_mul, inv_mul_cancel₀ hne]
  apply Traced.ends_bind (fits_clearBelow hb hv.wellFormed (hv.companion_eq_none hunone)
    (hv.cols ▸ hcolu) (hone ▸ one_ne_zero) (hone ▸ cancels_opposite) exists_opposite
    fun i hi => hvvalue ▸ hden.clearsWithin_normalized hne hi)
  rintro w ⟨-, hclears⟩
  rw [hvvalue] at hclears
  rintro _ ⟨⟩
  -- the division by the pivot is the only operation that changes minors
  exact ⟨_, mul_ne_zero hne hd, (hkeeps.scale hne).clear hclears⟩

theorem fits_advance (hA : MinorsWithin A b) {pivots : List ℕ}
    (hstairs : Staircase t.main.value col pivots)
    (hkeeps : KeepsMinors A t.main.value pivots.length d) (hd : d ≠ 0) :
    Ends Error.Never
      (fun s => (RowEquiv r t s.1 ∧ Staircase s.1.main.value (col + 1) s.2) ∧
        ∃ e, e ≠ 0 ∧ KeepsMinors A s.1.main.value s.2.length e)
      (advance (t, pivots) col).outcome := by
  have hrun : Ends Error.Never
      (fun s => ∃ e, e ≠ 0 ∧ KeepsMinors A s.1.main.value s.2.length e)
      (advance (t, pivots) col).outcome := by
    apply Traced.ends_bind (fits_reduceColumn hb ht hnone hcol hkeeps hd
      (hkeeps.hasDenominator hA hd hstairs.hasPivots))
    intro o ho
    cases o with
    | none => exact ⟨d, hd, hkeeps⟩
    | some u =>
      obtain ⟨e, he, hkept⟩ := ho u rfl
      refine ⟨e, he, ?_⟩
      rwa [List.length_append]
  exact hrun.strengthen fun s hs h => ⟨(ends_advance ht hcol hstairs).of_ok hs, h⟩

end Column

/-- The forward pass on a matrix with small minors. -/
theorem fits_forward {b : ℕ} (hb : b ^ 3 < 2 ^ 62) {m : Mat} (hm : m.WellFormed)
    (hA : MinorsWithin m.value b) :
    Ends Error.Never
      (fun s => RowEquiv m.rows ⟨m, none⟩ s.1 ∧ Staircase s.1.main.value m.cols s.2)
      (forward ⟨m, none⟩).outcome := by
  have hrun := Traced.ends_foldlM_range (E := Error.Never) (f := advance) (n := m.cols)
    (s := (⟨m, none⟩, []))
    (I := fun k s => (RowEquiv m.rows ⟨m, none⟩ s.1 ∧ Staircase s.1.main.value k s.2) ∧
      ∃ e, e ≠ 0 ∧ KeepsMinors m.value s.1.main.value s.2.length e) ?_ ?_
  · exact hrun.imp fun s hs => hs.1
  · exact ⟨⟨RowEquiv.refl (Mat.tableau_wellFormed hm), Staircase.nil _⟩, 1, one_ne_zero,
      KeepsMinors.refl _⟩
  · rintro k hk ⟨u, pivots⟩ ⟨⟨hu, hstairs⟩, d, hd, hkeeps⟩
    have hcol : k < u.main.cols := hu.cols ▸ hk
    apply (fits_advance hb hu.wellFormed (hu.companion_eq_none rfl) hcol hA hstairs hkeeps hd).imp
    intro s hs
    exact ⟨⟨hu.trans hs.1.1, hs.1.2⟩, hs.2⟩

end Tableau

/-! ## The determinant -/

/-- The products along the diagonal, up to the first `k` entries, are integers other than zero of
absolute value at most `b`. -/
def DiagonalWithin (b : ℕ) (W : ℕ → ℕ → ℚ) (k : ℕ) : Prop :=
  ∀ t, t ≤ k → ∃ z : ℤ, ∏ i ∈ Finset.range t, W i i = z ∧ z ≠ 0 ∧ |z| ≤ b

namespace DiagonalWithin

variable {b k : ℕ} {W C : ℕ → ℕ → ℚ} (h : DiagonalWithin b W k)

/-- The empty product is the empty minor. -/
theorem zero {A : ℕ → ℕ → ℚ} (hA : MinorsWithin A b) (W : ℕ → ℕ → ℚ) : DiagonalWithin b W 0 := by
  intro t ht
  obtain rfl := Nat.le_zero.1 ht
  obtain ⟨z, hz, hzb⟩ := hA 0 Fin.elim0 Fin.elim0
  rw [minor, Matrix.det_isEmpty] at hz
  refine ⟨z, ?_, ?_, hzb⟩
  · rw [Finset.range_zero, Finset.prod_empty, hz]
  · rw [← Int.cast_ne_zero (α := ℚ), ← hz]
    exact one_ne_zero

include h

theorem ne_zero {i : ℕ} (hi : i < k) : W i i ≠ 0 := by
  obtain ⟨z, hz, hne, -⟩ := h k le_rfl
  have hprod : ∏ i ∈ Finset.range k, W i i ≠ 0 := hz ▸ Int.cast_ne_zero.2 hne
  exact Finset.prod_ne_zero_iff.1 hprod i (Finset.mem_range.2 hi)

theorem hasPivots (hzero : ZeroBelow W k) : HasPivots W k id :=
  ⟨fun _ ht => h.ne_zero ht, hzero⟩

theorem atMost {i : ℕ} (hi : i < k) : AtMost b (W i i) := by
  obtain ⟨z, hz, hne, hzb⟩ := h i hi.le
  obtain ⟨z', hz', -, hzb'⟩ := h (i + 1) hi
  apply AtMost.of_mul_eq _ hne hzb' hzb
  rw [← hz, ← hz', Finset.prod_range_succ, mul_comm]

theorem atMost_prod {t : ℕ} (ht : t ≤ k) : AtMost b (∏ i ∈ Finset.range t, W i i) := by
  obtain ⟨z, hz, hne, hzb⟩ := h t ht
  apply AtMost.of_mul_eq (n := z) (d := 1) _ one_ne_zero hzb
  · rw [abs_one]
    exact (Int.one_le_abs hne).trans hzb
  · rw [hz, Int.cast_one, mul_one]

/-- One column of the elimination. -/
theorem succ {A B : ℕ → ℕ → ℚ} (hA : MinorsWithin A b) (hB : Tableau.Raises W B k k)
    (hC : Tableau.Clears B C k k (k < ·)) (hzero : ZeroBelow C (k + 1))
    (hkeeps : KeepsMinors A C (k + 1) 1) : DiagonalWithin b C (k + 1) := by
  have hsame : ∀ i, i < k → C i = W i := by
    intro i hi
    rw [hC.other i (by omega), hB.above i hi]
  have hprod : ∀ t, t ≤ k → ∏ i ∈ Finset.range t, C i i = ∏ i ∈ Finset.range t, W i i := by
    intro t ht
    apply Finset.prod_congr rfl
    intro i hi
    rw [hsame i ((Finset.mem_range.1 hi).trans_le ht)]
  have hpivots : HasPivots C (k + 1) id := by
    refine ⟨fun t ht => ?_, hzero⟩
    rcases Nat.lt_succ_iff_lt_or_eq.1 ht with ht | rfl
    · rw [hsame t ht]
      exact h.ne_zero ht
    · rw [hC.other t (lt_irrefl t)]
      exact hB.pivot_ne_zero
  intro t ht
  rcases Nat.le_succ_iff.1 ht with ht | rfl
  · rw [hprod t ht]
    exact h t ht
  · obtain ⟨f, hdiag⟩ := hkeeps.exists_prod_eq hpivots
    obtain ⟨z, hz, hzb⟩ := hA (k + 1) f fun a => id a
    rw [hz, mul_one] at hdiag
    refine ⟨z, hdiag, ?_, hzb⟩
    rw [← Int.cast_ne_zero (α := ℚ), ← hdiag]
    exact hpivots.prod_ne_zero

end DiagonalWithin

namespace Tableau

variable {b : ℕ} (hb : b ^ 3 < 2 ^ 62)
include hb

theorem exists_oppositeQuotient {pivot : Fraction} (hpivot : AtMost b pivot.toRat)
    (hne : pivot.toRat ≠ 0) (e : Fraction) (he : AtMost b e.toRat) :
    ∃ f, oppositeQuotient pivot e = .ok f := by
  obtain ⟨q, hq⟩ := Fraction.exists_div (sq_lt hb) he hpivot hne
  rw [oppositeQuotient, hq]
  exact ⟨-q, rfl⟩

/-- Nothing is divided here, so the minors that are kept are minors of `A` as they stand. -/
theorem fits_triangulate {A : ℕ → ℕ → ℚ} (hA : MinorsWithin A b) {n : ℕ} (c : ℕ) :
    ∀ {k : ℕ} {t : Tableau} (odd : Bool), k + c = n → t.WellFormed n → t.companion = none →
      t.main.cols = n → ZeroBelow t.main.value k → DiagonalWithin b t.main.value k →
      KeepsMinors A t.main.value k 1 →
      Ends Error.Never
        (fun o => ∀ u odd', o = some (u, odd') →
          u.WellFormed n ∧ u.main.cols = n ∧ DiagonalWithin b u.main.value n)
        (t.triangulate odd (List.range' k c)).outcome := by
  induction c with
  | zero =>
    intro k t odd hk ht hnone hcols hzero hdiag hkeeps
    rintro _ _ ⟨⟩
    rw [Nat.add_zero] at hk
    exact ⟨ht, hcols, hk ▸ hdiag⟩
  | succ c ih =>
    intro k t odd hk ht hnone hcols hzero hdiag hkeeps
    have hkn : k < n := by omega
    have hden := hkeeps.hasDenominator hA one_ne_zero (hdiag.hasPivots hzero)
    rw [List.range'_succ]
    apply Traced.ends_bind (fits_fetchPivot_of_keeps hb ht hnone (hcols.symm ▸ hkn) hkeeps hden)
    rintro (_ | ⟨u, swapped⟩) ho
    · exact fun u odd' h => nomatch h
    obtain ⟨hu, hraises, hkeeps, hden⟩ := ho u swapped rfl
    have hne := hraises.pivot_ne_zero
    have hkcols : k < u.main.cols := by rwa [hu.cols, hcols]
    have hkrows : k < u.main.rows := by rwa [hu.wellFormed.rows]
    have hunone := hu.companion_eq_none hnone
    apply Traced.ends_bind (hu.wellFormed.main.ends_entry hkrows hkcols)
    intro pivot hpivot
    have hpivot0 : pivot.toRat ≠ 0 := hpivot ▸ hne
    have hpivotb : AtMost b pivot.toRat := hpivot ▸ hden.atMost le_rfl k
    apply Traced.ends_bind (fits_clearBelow hb hu.wellFormed hunone hkcols hne
      (hpivot ▸ cancels_oppositeQuotient hpivot0) (exists_oppositeQuotient hb hpivotb hpivot0)
      fun i hi => hden.clearsWithin hne hi.le)
    rintro v ⟨hv, hclears⟩
    have hzero' := zeroBelow_succ hzero hraises hclears
    have hkeeps' := hkeeps.clear hclears
    exact ih _ (by omega) hv.wellFormed (hv.companion_eq_none hunone)
      (by rw [hv.cols, hu.cols, hcols]) hzero' (hdiag.succ hA hraises hclears hzero' hkeeps')
      hkeeps'

end Tableau

namespace Mat

variable {b : ℕ} (hb : b ^ 3 < 2 ^ 62)
include hb

theorem exists_diagonalProduct {m : Mat} {n : ℕ} (hm : m.WellFormed) (hrows : m.rows = n)
    (hcols : m.cols = n) (hdiag : DiagonalWithin b m.value n) {start : Fraction}
    (hstart : start.toRat = 1 ∨ start.toRat = -1) : ∃ d, m.diagonalProduct n start = .ok d := by
  have hrun : Ends Error.Never
      (fun d => d.toRat = start.toRat * ∏ i ∈ Finset.range n, m.value i i)
      (m.diagonalProduct n start) := by
    apply Ends.foldlM_range
      (I := fun i (d : Fraction) => d.toRat = start.toRat * ∏ j ∈ Finset.range i, m.value j j)
    · simp
    · intro i hi d hd
      apply (hm.ends_entry (hrows ▸ hi) (hcols ▸ hi)).bind
      intro x hx
      have hdb : AtMost b d.toRat := by
        rw [hd]
        rcases hstart with hstart | hstart
        · rw [hstart, one_mul]
          exact hdiag.atMost_prod hi.le
        · rw [hstart, neg_one_mul]
          exact (hdiag.atMost_prod hi.le).neg
      have hxb : AtMost b x.toRat := hx ▸ hdiag.atMost hi
      apply ((Fraction.ends_mul d x).of_exists (Fraction.exists_mul (sq_lt hb) hdb hxb)).imp
      intro p hp
      rw [hp, hd, hx, Finset.prod_range_succ, mul_assoc]
  exact hrun.exists_eq_ok

variable {m : Mat} (hm : m.WellFormed) (hA : MinorsWithin m.value b)
include hm hA

theorem fits_gauss : Ends Error.Never
    (fun s => Tableau.RowEquiv m.rows ⟨m, none⟩ ⟨s.2, none⟩ ∧ Staircase s.2.value m.cols s.1)
    (m.gauss false).outcome := by
  have hrun : Ends Error.Never (fun _ => True) (m.gauss false).outcome := by
    apply Traced.ends_bind (P := fun _ => True)
    · exact Traced.ends_bind (Tableau.fits_forward hb hm hA) fun _ _ => trivial
    · exact fun _ _ => trivial
  apply ((ends_gauss hm false).of_never hrun).imp
  rintro s ⟨hequiv, hstairs, -⟩
  exact ⟨hequiv, hstairs⟩

theorem fits_rank :
    Ends Error.Never (fun k => k = (m.toMatrix m.rows m.cols).rank) m.rank.outcome := by
  have hrun : Ends Error.Never (fun _ => True) m.rank.outcome :=
    Traced.ends_bind (fits_gauss hb hm hA) fun _ _ => trivial
  exact (ends_rank hm).of_never hrun

theorem fits_determinant (hsquare : m.rows = m.cols) :
    Ends Error.Never (fun d => d.toRat = (m.toMatrix m.rows m.rows).det) m.determinant.outcome := by
  have hrun : Ends Error.Never (fun _ => True) m.determinant.outcome := by
    apply Traced.ends_bind (ends_checkSquare hsquare)
    intro _ _
    have hzero : ZeroBelow m.value 0 := fun j hj => absurd hj (Nat.not_lt_zero j)
    have htriangle := Tableau.fits_triangulate hb hA (n := m.rows) m.rows (k := 0) (t := ⟨m, none⟩)
      false (Nat.zero_add _) (tableau_wellFormed hm) rfl hsquare.symm hzero
      (DiagonalWithin.zero hA _) (KeepsMinors.refl _)
    rw [← List.range_eq_range'] at htriangle
    apply Traced.ends_bind htriangle
    rintro (_ | ⟨u, odd⟩) ho
    · exact trivial
    · obtain ⟨hu, hcols, hdiag⟩ := ho u odd rfl
      have hstart : (if odd then -1 else 1 : Fraction).toRat = 1 ∨
          (if odd then -1 else 1 : Fraction).toRat = -1 := by
        cases odd
        · exact Or.inl Fraction.toRat_one
        · exact Or.inr (by rw [if_pos rfl, Fraction.toRat_neg, Fraction.toRat_one])
      exact (Ends.trivial _).of_exists
        (exists_diagonalProduct hb hu.main hu.rows hcols hdiag hstart)
  exact (ends_determinant hm rfl hsquare.symm).of_never hrun

omit hb hA in
/-- **No overflow from small minors.** If no minor of a matrix of integers is larger than `2 ^ 20`,
then the forward pass does not overflow, whichever pivots it takes, and neither do the rank and, for
a square matrix, the determinant. So there is an echelon form, the product of an invertible matrix
and the given one, and the rank and the determinant are the exact ones. -/
theorem elimination_of_small_minors (hint : ∀ row ∈ m.data, ∀ x ∈ row, x.den = 1)
    (hminors : ∀ (n : ℕ) (f : Fin n → Fin m.rows) (g : Fin n → Fin m.cols),
      StrictMono f → StrictMono g →
        |((m.toMatrix m.rows m.cols).submatrix f g).det| ≤ 2 ^ 20) :
    (∃ pivots n, (m.gauss false).outcome = .ok (pivots, n) ∧
      n.WellFormed ∧ n.rows = m.rows ∧ n.cols = m.cols ∧ Staircase n.value m.cols pivots ∧
      ∃ P : Matrix (Fin m.rows) (Fin m.rows) ℚ, IsUnit P ∧
        n.toMatrix m.rows m.cols = P * m.toMatrix m.rows m.cols) ∧
    m.rank.outcome = .ok (m.toMatrix m.rows m.cols).rank ∧
    (m.rows = m.cols →
      ∃ d, m.determinant.outcome = .ok d ∧ d.toRat = (m.toMatrix m.rows m.rows).det) := by
  have hb : (2 ^ 20) ^ 3 < 2 ^ 62 := by norm_num
  have hA : MinorsWithin m.value (2 ^ 20) := by
    apply minorsWithin hm hint
    intro n f g hf hg
    exact_mod_cast hminors n f g hf hg
  refine ⟨?_, ?_, fun hsquare => (fits_determinant hb hm hA hsquare).exists_ok⟩
  · obtain ⟨⟨pivots, n⟩, hrun, hequiv, hstairs⟩ := (fits_gauss hb hm hA).exists_ok
    have hn := hequiv.wellFormed
    obtain ⟨P, hunit, hprod, -⟩ := hequiv.exists_isUnit
    exact ⟨pivots, n, hrun, hn.main, hn.rows, hprod.cols, hstairs, P, hunit,
      hprod.toMatrix m.cols⟩
  · obtain ⟨k, hk, hrank⟩ := (fits_rank hb hm hA).exists_ok
    rw [hk, hrank]

omit hb hm hA in
/-- The pivot of the first column is fetched from the last row, and thirds arise. -/
theorem elimination_of_small_minors_three_by_three :
    let m : Mat := build 3 3 fun i j =>
      Fraction.ofInt32 (if i = 2 ∧ j = 0 then 3 else if i = j then 2 else 1)
    m.WellFormed ∧ (∀ row ∈ m.data, ∀ x ∈ row, x.den = 1) ∧
      (∀ (n : ℕ) (f g : Fin n → Fin 3), StrictMono f → StrictMono g →
        |((m.toMatrix 3 3).submatrix f g).det| ≤ 2 ^ 20) ∧
      (∃ pivots n, (m.gauss false).outcome = .ok (pivots, n) ∧ Staircase n.value 3 pivots) ∧
      m.rank.outcome = .ok (m.toMatrix 3 3).rank ∧
      ∃ d, m.determinant.outcome = .ok d ∧ d.toRat = (m.toMatrix 3 3).det := by
  intro m
  have hm : m.WellFormed := wellFormed_build 3 3 _
  have hint : ∀ row ∈ m.data, ∀ x ∈ row, x.den = 1 := by
    decide +kernel
  have hentries : ∀ i j : Fin 3, |m.toMatrix 3 3 i j| ≤ 3 := by
    decide +kernel
  have hminors : ∀ (n : ℕ) (f g : Fin n → Fin 3), StrictMono f → StrictMono g →
      |((m.toMatrix 3 3).submatrix f g).det| ≤ 2 ^ 20 := by
    intro n f g hf _
    have hn : n ≤ 3 := by
      simpa using Fintype.card_le_of_injective f hf.injective
    have hdet : AbsoluteValue.abs ((m.toMatrix 3 3).submatrix f g).det ≤
        (Fintype.card (Fin n)).factorial • (3 : ℚ) ^ Fintype.card (Fin n) :=
      Matrix.det_le fun i j => hentries (f i) (g j)
    rw [Fintype.card_fin, nsmul_eq_mul] at hdet
    apply hdet.trans
    interval_cases n <;> norm_num [Nat.factorial]
  obtain ⟨⟨pivots, n, hrun, -, -, -, hstairs, -⟩, hrank, hdet⟩ :=
    elimination_of_small_minors hm hint hminors
  exact ⟨hm, hint, hminors, ⟨pivots, n, hrun, hstairs⟩, hrank, hdet rfl⟩

end Mat

end ExactLinAlg
