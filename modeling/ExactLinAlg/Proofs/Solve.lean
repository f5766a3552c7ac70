import ExactLinAlg.Elimination.Solve
import ExactLinAlg.Proofs.Echelon

/-!
# The solution of a linear system is exact

Elimination of the unknowns makes the coefficients triangular with ones on the diagonal: a staircase
with a pivot in every column. It fails on a column without a pivot, and then the coefficients have
determinant zero. Back-substitution solves the triangular system from the last row up
(`SolvesFrom`), and the row operations have not changed the solutions.
-/

namespace ExactLinAlg

open Matrix

/-! ## Back-substitution -/

namespace Mat

variable {m : Mat} {n : ℕ} (hm : m.WellFormed) (hrows : m.rows = n) (hcols : m.cols = n + 1)
include hm hrows hcols

theorem ends_substituteRow {i : ℕ} (hi : i < n) (hone : m.value i i = 1) {known : Vec}
    (hlen : known.length = n - (i + 1)) (h : SolvesFrom m.value n (i + 1) known) :
    Ends Error.IsOverflow (fun v => v.length = n - i ∧ SolvesFrom m.value n i v)
      (m.substituteRow n i known) := by
  apply (hm.ends_line (hrows ▸ hi)).bind
  intro row hrow
  obtain ⟨hrowlen, hrow⟩ := hrow
  rw [hcols] at hrowlen
  apply (Vec.ends_slice hi (hrowlen ▸ Nat.le_succ n)).bind
  intro tail htail
  obtain ⟨htaillen, htail⟩ := htail
  apply (Vec.ends_dot (htaillen.trans hlen.symm)).bind
  intro sum hsum
  apply (Vec.ends_entry (hrowlen ▸ Nat.lt_succ_self n)).bind
  intro y hy
  apply (Fraction.ends_sub y sum).bind
  intro x hx
  refine ⟨?_, h.cons hi hone ?_⟩
  · rw [List.length_cons, hlen]
    omega
  · rw [hx, hy, hsum, hrow, htaillen, Finset.sum_Ico_eq_sum_range]
    congr 1
    apply Finset.sum_congr rfl
    intro j hj
    rw [htail j (Finset.mem_range.1 hj), hrow, Nat.add_sub_cancel_left]

/-- The substitution runs from the last row to the first, so its invariant is about the rows from
the current one on. -/
theorem ends_backSubstitute (hstairs : Staircase m.value n (List.range n)) :
    Ends Error.IsOverflow
      (fun x => x.length = n ∧ m.toMatrix n n *ᵥ x.toVector n = fun i : Fin n => m.value i n)
      (m.backSubstitute n) := by
  have hrun : Ends Error.IsOverflow (fun x => x.length = n - 0 ∧ SolvesFrom m.value n 0 x)
      (m.backSubstitute n) := by
    apply Ends.foldrM_range
      (I := fun i known => known.length = n - i ∧ SolvesFrom m.value n i known)
    · refine ⟨(Nat.sub_self n).symm, ?_⟩
      intro a hna han
      exact absurd han (Nat.not_lt.2 hna)
    · intro i hi known hknown
      exact ends_substituteRow hm hrows hcols hi (hstairs.diagonal hi) hknown.1 hknown.2
  apply hrun.imp
  intro x hx
  exact ⟨hx.1, hx.2.mulVec hstairs.zeroBelow⟩

end Mat

/-! ## Elimination of the unknowns -/

namespace Tableau

variable {n : ℕ} {t : Tableau} (ht : t.WellFormed n) (hcols : t.main.cols = n + 1)
include ht hcols

theorem ends_reduceUnknown {k : ℕ} (hk : k < n) (h : Staircase t.main.value k (List.range k)) :
    Ends (Error.OfSquare t.main n)
      (fun u => RowEquiv n t u ∧ Staircase u.main.value (k + 1) (List.range (k + 1)))
      (t.reduceUnknown k).outcome := by
  have hcol : k < t.main.cols := by
    rw [hcols]
    exact Nat.lt_succ_of_lt hk
  apply Traced.ends_bind ((ends_reduceColumn ht hcol k).weaken fun _ he => Or.inl he)
  intro o ho
  cases o with
  | none => exact Or.inr ⟨rfl, h.zeroBelow.det_eq_zero_of_gap hk ho⟩
  | some u =>
    refine ⟨ho.1, ?_⟩
    rw [List.range_succ]
    apply h.extend
    rw [List.length_range]
    exact ho.2

theorem ends_reduceUnknowns :
    Ends (Error.OfSquare t.main n)
      (fun u => RowEquiv n t u ∧ Staircase u.main.value n (List.range n))
      ((List.range n).foldlM reduceUnknown t).outcome := by
  apply Traced.ends_foldlM_range
    (I := fun k (u : Tableau) => RowEquiv n t u ∧ Staircase u.main.value k (List.range k))
  · exact ⟨RowEquiv.refl ht, Staircase.nil _⟩
  · intro k hk u hu
    obtain ⟨hu, hstairs⟩ := hu
    have hucols : u.main.cols = n + 1 := hu.cols.trans hcols
    apply (ends_reduceUnknown hu.wellFormed hucols hk hstairs).mono
    · intro e he
      exact he.imp_right fun h => ⟨h.1, hu.det_eq_zero h.2⟩
    · intro v hv
      exact ⟨hu.trans hv.1, hv.2⟩

end Tableau

/-! ## The solution -/

namespace Tableau.RowEquiv

variable {n : ℕ} {s t : Tableau} (h : RowEquiv n s t)
include h

theorem isUnit (hstairs : Staircase t.main.value n (List.range n)) :
    IsUnit (s.main.toMatrix n n) := by
  rw [isUnit_iff_isUnit_det, isUnit_iff_ne_zero]
  intro hzero
  obtain ⟨d, -, h⟩ := h
  have hdet := h.det
  rw [hzero, mul_zero] at hdet
  exact one_ne_zero (hstairs.det_eq_one.symm.trans hdet)

/-- Row operations keep the solutions. -/
theorem mulVec_eq {c : ℕ} {x : Fin n → ℚ}
    (hx : t.main.toMatrix n n *ᵥ x = fun i : Fin n => t.main.value i c) :
    s.main.toMatrix n n *ᵥ x = fun i : Fin n => s.main.value i c := by
  obtain ⟨P, hunit, hprod, -⟩ := h.exists_isUnit
  apply mulVec_injective_iff_isUnit.2 hunit
  rw [mulVec_mulVec, ← hprod.toMatrix n, hx]
  ext i
  exact hprod.value i c

end Tableau.RowEquiv

namespace Mat

theorem wellFormed_ofColumn (v : Vec) : (ofColumn v).WellFormed := by
  refine ⟨List.length_map _, ?_⟩
  intro row hrow
  obtain ⟨x, -, rfl⟩ := List.mem_map.1 hrow
  rfl

theorem value_ofColumn (v : Vec) (i : ℕ) : (ofColumn v).value i 0 = Vec.value v i := by
  rcases Nat.lt_or_ge i v.length with hi | hi
  · have hlt : i < (ofColumn v).data.length := by rwa [(wellFormed_ofColumn v).length_data]
    rw [value_of_lt hlt, Vec.value_of_lt hi]
    simp [ofColumn]
  · rw [(wellFormed_ofColumn v).value_of_rows_le hi, Vec.value_of_le hi]

variable {m : Mat} {n : ℕ} (hm : m.WellFormed) (hrows : m.rows = n) (hcols : m.cols = n)
include hm hrows hcols

theorem ends_solve {b : Vec} (hb : b.length = n) :
    Ends (Error.OfSquare m n)
      (fun x => x.length = n ∧ IsUnit (m.toMatrix n n) ∧
        m.toMatrix n n *ᵥ x.toVector n = b.toVector n)
      (m.solve b).outcome := by
  rw [solve, hrows]
  apply Traced.ends_bind (ends_checkSquare (hrows.trans hcols.symm))
  intro _ _
  apply Traced.ends_bind (ends_checkDims hb.symm)
  intro _ _
  apply Traced.ends_bind (ends_hstack hm (wellFormed_ofColumn b) (hrows.trans hb.symm))
  intro p hp
  obtain ⟨hpwf, hprows, hpcols, hpvalue⟩ := hp
  have hpm : p.toMatrix n n = m.toMatrix n n := by
    ext i j
    rw [toMatrix_apply, hpvalue, if_pos (hcols ▸ j.isLt), toMatrix_apply]
  have hpb : ∀ i, p.value i n = Vec.value b i := by
    intro i
    rw [hpvalue, hcols, if_neg (lt_irrefl n), Nat.sub_self, value_ofColumn]
  have ht : Tableau.WellFormed n ⟨p, none⟩ := ⟨hpwf, hprows.trans hrows, fun _ h => nomatch h⟩
  have htcols : p.cols = n + 1 := by
    rw [hpcols, hcols]
    rfl
  have helim := Tableau.ends_reduceUnknowns ht htcols
  have herr : Error.OfSquare p n = Error.OfSquare m n := by
    unfold Error.OfSquare
    rw [hpm]
  rw [herr] at helim
  apply Traced.ends_bind helim
  intro u hu
  obtain ⟨hequiv, hstairs⟩ := hu
  have hwf := hequiv.wellFormed
  apply (ends_backSubstitute hwf.main hwf.rows (hequiv.cols.trans htcols) hstairs).mono
  · intro e he
    exact Or.inl he
  · intro x hx
    rw [← hpm]
    refine ⟨hx.1, hequiv.isUnit hstairs, ?_⟩
    rw [hequiv.mulVec_eq hx.2]
    ext i
    exact hpb i

/-- **The solution.** What elimination and back-substitution give for a square system is its only
solution. A system is called singular only if its determinant is zero, so the determinant decides
between a solution and a singular system as long as nothing overflows. The solution for the product
of the matrix and a vector is that vector. -/
theorem solve_exact {b : Vec} (hb : b.length = n) :
    (∀ x, (m.solve b).outcome = .ok x → x.length = n ∧
      m.toMatrix n n *ᵥ x.toVector n = b.toVector n ∧
      ∀ y, m.toMatrix n n *ᵥ y = b.toVector n → y = x.toVector n) ∧
    ((m.solve b).outcome = .error .singular → (m.toMatrix n n).det = 0) ∧
    ((m.toMatrix n n).det ≠ 0 →
      (∃ x, (m.solve b).outcome = .ok x) ∨ (m.solve b).outcome = .error .overflow) ∧
    ((m.toMatrix n n).det = 0 →
      (m.solve b).outcome = .error .singular ∨ (m.solve b).outcome = .error .overflow) ∧
    ∀ x c y, x.length = n → m.mulVec x = .ok c → (m.solve c).outcome = .ok y → y = x := by
  have hsolve := ends_solve hm hrows hcols hb
  refine ⟨?_, ?_, ?_, ?_, ?_⟩
  · intro x hx
    obtain ⟨hlen, hunit, heq⟩ := hsolve.of_ok hx
    refine ⟨hlen, heq, ?_⟩
    intro y hy
    exact mulVec_injective_iff_isUnit.2 hunit (hy.trans heq.symm)
  · intro h
    rcases hsolve.of_error h with he | ⟨-, hdet⟩
    · exact absurd he (by decide)
    · exact hdet
  · intro hdet
    cases h : (m.solve b).outcome with
    | ok x => exact Or.inl ⟨x, rfl⟩
    | error e =>
      rcases hsolve.of_error h with rfl | ⟨-, hzero⟩
      · exact Or.inr rfl
      · exact absurd hzero hdet
  · intro hdet
    cases h : (m.solve b).outcome with
    | ok x =>
      obtain ⟨-, hunit, -⟩ := hsolve.of_ok h
      rw [isUnit_iff_isUnit_det, hdet] at hunit
      exact absurd hunit not_isUnit_zero
    | error e =>
      rcases hsolve.of_error h with rfl | ⟨rfl, -⟩
      · exact Or.inr rfl
      · exact Or.inl rfl
  · intro x c y hx hc hy
    have hclen : c.length = n := (length_of_mulVec hm hc).2.trans hrows
    have hprod := toVector_of_mulVec hm hc
    rw [hrows, hcols] at hprod
    obtain ⟨hylen, hunit, heq⟩ := (ends_solve hm hrows hcols hclen).of_ok hy
    apply Vec.ext_toVector hylen hx
    exact mulVec_injective_iff_isUnit.2 hunit (heq.trans hprod)

omit hm hrows hcols in
theorem solve_exact_offDiagonal :
    let m : Mat := ⟨3, 3, [[0, 1, 1], [1, 0, 1], [1, 1, 0]]⟩
    let s : Mat := ⟨3, 3, [[0, 1, 1], [1, 0, 1], [1, -1, 0]]⟩
    let b : Vec := [1, 1, 0]
    let x : Vec := [0, 0, 1]
    m.WellFormed ∧ (m.solve b).outcome = .ok x ∧ m.toMatrix 3 3 *ᵥ x.toVector 3 = b.toVector 3 ∧
      (∀ y, m.toMatrix 3 3 *ᵥ y = b.toVector 3 → y = x.toVector 3) ∧ m.mulVec x = .ok b ∧
      s.WellFormed ∧ (s.solve b).outcome = .error .singular ∧ (s.toMatrix 3 3).det = 0 := by
  intro m s b x
  have hm : m.WellFormed := ⟨rfl, by decide⟩
  have hs : s.WellFormed := ⟨rfl, by decide⟩
  have hx : (m.solve b).outcome = .ok x := by
    show (solve ⟨3, 3, [[0, 1, 1], [1, 0, 1], [1, 1, 0]]⟩ [1, 1, 0]).outcome = .ok [0, 0, 1]
    decide +kernel
  have hb : m.mulVec x = .ok b := by
    show mulVec ⟨3, 3, [[0, 1, 1], [1, 0, 1], [1, 1, 0]]⟩ [0, 0, 1] = .ok [1, 1, 0]
    decide +kernel
  have hsingular : (s.solve b).outcome = .error .singular := by
    show (solve ⟨3, 3, [[0, 1, 1], [1, 0, 1], [1, -1, 0]]⟩ [1, 1, 0]).outcome = _
    decide +kernel
  obtain ⟨-, hsolves, hunique⟩ := (solve_exact hm rfl rfl (b := b) rfl).1 x hx
  have hdet := (solve_exact hs rfl rfl (b := b) rfl).2.1 hsingular
  exact ⟨hm, hx, hsolves, hunique, hb, hs, hsingular, hdet⟩

end Mat

end ExactLinAlg
