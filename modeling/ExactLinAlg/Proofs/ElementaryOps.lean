import ExactLinAlg.Proofs.FailedCalls

/-!
# Row operations are elementary matrices

In place a row operation takes its two rows from different parts of the matrix, computes the new row
and overwrites the old one entry by entry. `InPlace.run_rowOp_eq_ok_iff` says that this comes to the
same as the operation on the value, which is multiplication by the elementary matrix: its effect on
rows, its undoing and its effect on determinants are those of `RowOp.act` and `RowOp.matrix`.
-/

namespace ExactLinAlg

open Matrix

namespace InPlace

variable {op : RowOp} {m n : Mat}

theorem run_rowOp_of_ok (h : op.apply m = .ok n) : (rowOp op).run m = .ok () n := by
  have hrealizes := realizes_rowOp op m
  rw [h] at hrealizes
  obtain ⟨_, _, hrun, rfl⟩ := hrealizes
  exact hrun

theorem run_rowOp_of_error {e : Error} (h : op.apply m = .error e) :
    (rowOp op).run m = .error e m :=
  (realizes_rowOp op m).run_of_error (atomic_rowOp op) h

theorem run_rowOp_eq_ok_iff : (rowOp op).run m = .ok () n ↔ op.apply m = .ok n := by
  constructor
  · intro h
    cases hop : op.apply m with
    | ok k =>
      cases h.symm.trans (run_rowOp_of_ok hop)
      rfl
    | error e => cases h.symm.trans (run_rowOp_of_error hop)
  · exact run_rowOp_of_ok

end InPlace

namespace RowOp

/-- The rows that the operation changes. -/
def changed : RowOp → List ℕ
  | swap i j => [i, j]
  | scale _ i => [i]
  | addScaled _ _ target => [target]

variable {m n k : Mat} {op : RowOp}

/-! ## Rows -/

/-- The other rows stay as they are. -/
theorem line_of_apply (h : op.apply m = .ok n) {a : ℕ} (ha : a ∉ op.changed) :
    n.line a = m.line a := by
  cases op with
  | swap i j =>
    obtain ⟨hai, haj⟩ := not_or.1 (mt List.mem_pair.2 ha)
    obtain ⟨upper, -, h⟩ := bind_eq_ok_iff.1 h
    obtain ⟨lower, -, ⟨⟩⟩ := bind_eq_ok_iff.1 h
    rw [Mat.line_withLine_of_ne haj, Mat.line_withLine_of_ne hai]
  | scale f i =>
    obtain ⟨row, -, h⟩ := bind_eq_ok_iff.1 h
    obtain ⟨scaled, -, ⟨⟩⟩ := bind_eq_ok_iff.1 h
    exact Mat.line_withLine_of_ne (mt List.mem_singleton.2 ha) scaled
  | addScaled f source target =>
    obtain ⟨added, -, h⟩ := bind_eq_ok_iff.1 h
    obtain ⟨row, -, h⟩ := bind_eq_ok_iff.1 h
    obtain ⟨sum, -, ⟨⟩⟩ := bind_eq_ok_iff.1 h
    exact Mat.line_withLine_of_ne (mt List.mem_singleton.2 ha) sum

/-- Rows in range can be exchanged. -/
theorem exists_apply_swap (hm : m.WellFormed) {i j : ℕ} (hi : i < m.rows) (hj : j < m.rows) :
    ∃ n, (swap i j).apply m = .ok n ∧ n.line i = m.line j ∧ n.line j = m.line i := by
  obtain ⟨upper, -, hupper, -⟩ := hm.line_eq_ok hi
  obtain ⟨lower, -, hlower, -⟩ := hm.line_eq_ok hj
  have hlen : (m.withLine i lower).data.length = m.rows :=
    List.length_set.trans hm.length_data
  refine ⟨(m.withLine i lower).withLine j upper, ?_, ?_, ?_⟩
  · rw [apply, hupper, hlower]
    rfl
  · rw [hlower]
    by_cases hij : i = j
    · subst hij
      rw [Mat.line_withLine (hlen ▸ hj), ← hlower, hupper]
    · rw [Mat.line_withLine_of_ne hij, Mat.line_withLine (hm.length_data ▸ hi)]
  · rw [Mat.line_withLine (hlen ▸ hj), hupper]

theorem act_addScaled_target (f : Fraction) (source target : ℕ) (A : ℕ → ℕ → ℚ) :
    (addScaled f source target).act A target = A target + f.toRat • A source :=
  Function.update_self ..

theorem act_scale_self (f : Fraction) (i : ℕ) (A : ℕ → ℕ → ℚ) :
    (scale f i).act A i = f.toRat • A i :=
  Function.update_self ..

/-! ## Undoing -/

theorem act_swap_swap (i j : ℕ) (A : ℕ → ℕ → ℚ) : (swap i j).act ((swap i j).act A) = A := by
  funext a
  rw [act_swap, act_swap, Equiv.swap_apply_self]

theorem act_addScaled_neg (f : Fraction) {source target : ℕ} (h : source ≠ target)
    (A : ℕ → ℕ → ℚ) :
    (addScaled (-f) source target).act ((addScaled f source target).act A) = A := by
  have hsource : (addScaled f source target).act A source = A source :=
    Function.update_of_ne h ..
  rw [act, act_addScaled_target, hsource, act, Function.update_idem, Fraction.toRat_neg, neg_smul,
    add_neg_cancel_right, Function.update_eq_self]

/-- Operations that undo each other on the values do so on the matrix. -/
theorem eq_of_apply_apply (hm : m.WellFormed) {undo : RowOp} (hop : op.InRange m.rows)
    (hundo : undo.InRange m.rows) (hact : undo.act (op.act m.value) = m.value)
    (h : op.apply m = .ok n) (h' : undo.apply n = .ok k) : k = m := by
  obtain ⟨hn, hrows, hcols, hvalue⟩ := (ends_apply hm hop).of_ok h
  obtain ⟨hk, hrows', hcols', hvalue'⟩ := (ends_apply hn (hrows.symm ▸ hundo)).of_ok h'
  apply Mat.ext_value hk hm (hrows'.trans hrows) (hcols'.trans hcols)
  intro a b
  rw [hvalue', hvalue, hact]

/-! ## Determinants -/

theorem toMatrix_of_apply (hm : m.WellFormed) (hop : op.InRange m.rows)
    (h : op.apply m = .ok n) (c : ℕ) :
    n.toMatrix m.rows c = op.matrix m.rows * m.toMatrix m.rows c :=
  ((ends_product hop hm rfl).of_ok h).1.toMatrix c

theorem det_of_apply (hm : m.WellFormed) (hop : op.InRange m.rows) (h : op.apply m = .ok n) :
    (n.toMatrix m.rows m.rows).det = op.factor * (m.toMatrix m.rows m.rows).det := by
  rw [toMatrix_of_apply hm hop h, det_mul, det_matrix hop]

end RowOp

open InPlace RowOp

namespace InPlace

/-! ## In place -/

variable {m n : Mat} {i j : ℕ} {f : Fraction} (hm : m.WellFormed)
include hm

/-- The operation overflows and changes nothing, or it multiplies by its matrix. -/
theorem run_rowOp_outcomes {op : RowOp} (hop : op.InRange m.rows) :
    ((∃ n, (rowOp op).run m = .ok () n) ∨ (rowOp op).run m = .error .overflow m) ∧
      ∀ n, (rowOp op).run m = .ok () n → n.WellFormed ∧ n.rows = m.rows ∧ n.cols = m.cols ∧
        n.toMatrix m.rows m.cols = op.matrix m.rows * m.toMatrix m.rows m.cols := by
  have hends := ends_apply hm hop
  constructor
  · cases h : op.apply m with
    | ok n => exact Or.inl ⟨n, run_rowOp_of_ok h⟩
    | error e =>
      cases hends.of_error h
      exact Or.inr (run_rowOp_of_error h)
  · intro n h
    have happly := run_rowOp_eq_ok_iff.1 h
    obtain ⟨hn, hrows, hcols, -⟩ := hends.of_ok happly
    exact ⟨hn, hrows, hcols, toMatrix_of_apply hm hop happly m.cols⟩

theorem of_run_addScaled (hi : i < m.rows) (hj : j < m.rows)
    (h : (rowOp (.addScaled f i j)).run m = .ok () n) :
    n.value j = m.value j + f.toRat • m.value i ∧
      (i = j → n.value j = (1 + f.toRat) • m.value j) ∧ (∀ k, k ≠ j → n.line k = m.line k) ∧
      (i ≠ j → (n.toMatrix m.rows m.rows).det = (m.toMatrix m.rows m.rows).det) := by
  have hop : (addScaled f i j).InRange m.rows := ⟨hi, hj⟩
  have happly := run_rowOp_eq_ok_iff.1 h
  obtain ⟨-, -, -, hvalue⟩ := (ends_apply hm hop).of_ok happly
  have hrow : n.value j = m.value j + f.toRat • m.value i := by
    rw [hvalue, act_addScaled_target]
  refine ⟨hrow, ?_, fun k hk => line_of_apply happly (mt List.mem_singleton.1 hk), ?_⟩
  · rintro rfl
    rw [hrow, add_smul, one_smul]
  · intro hij
    rw [det_of_apply hm hop happly, factor, if_neg hij, one_mul]

theorem of_run_scale (hi : i < m.rows) (h : (rowOp (.scale f i)).run m = .ok () n) :
    n.value i = f.toRat • m.value i ∧ (∀ k, k ≠ i → n.line k = m.line k) ∧
      (n.toMatrix m.rows m.rows).det = f.toRat * (m.toMatrix m.rows m.rows).det := by
  have hop : (scale f i).InRange m.rows := hi
  have happly := run_rowOp_eq_ok_iff.1 h
  obtain ⟨-, -, -, hvalue⟩ := (ends_apply hm hop).of_ok happly
  refine ⟨?_, fun k hk => line_of_apply happly (mt List.mem_singleton.1 hk),
    det_of_apply hm hop happly⟩
  rw [hvalue, act_scale_self]

/-- An exchange succeeds, and a second one takes it back. -/
theorem exists_run_swap (hi : i < m.rows) (hj : j < m.rows) :
    ∃ n, (rowOp (.swap i j)).run m = .ok () n ∧
      n.line i = m.line j ∧ n.line j = m.line i ∧
      (∀ k, k ≠ i → k ≠ j → n.line k = m.line k) ∧
      (rowOp (.swap i j)).run n = .ok () m ∧
      (i ≠ j → (n.toMatrix m.rows m.rows).det = -(m.toMatrix m.rows m.rows).det) := by
  have hop : (swap i j).InRange m.rows := ⟨hi, hj⟩
  obtain ⟨n, happly, hfirst, hsecond⟩ := exists_apply_swap hm hi hj
  obtain ⟨hn, hrows, -, -⟩ := (ends_apply hm hop).of_ok happly
  obtain ⟨k, hback, -⟩ := exists_apply_swap hn (hrows ▸ hi) (hrows ▸ hj)
  have hk : k = m := eq_of_apply_apply hm hop hop (act_swap_swap i j m.value) happly hback
  refine ⟨n, run_rowOp_of_ok happly, hfirst, hsecond, ?_, run_rowOp_of_ok (hk ▸ hback), ?_⟩
  · intro a hai haj
    exact line_of_apply happly (mt List.mem_pair.1 (not_or.2 ⟨hai, haj⟩))
  · intro hij
    rw [det_of_apply hm hop happly, factor, if_neg hij, neg_one_mul]

/-- A multiple that was added to another row is taken away again. -/
theorem eq_of_run_addScaled_neg (hi : i < m.rows) (hj : j < m.rows) (hij : i ≠ j) {k : Mat}
    (h : (rowOp (.addScaled f i j)).run m = .ok () n)
    (h' : (rowOp (.addScaled (-f) i j)).run n = .ok () k) : k = m := by
  have hop : (addScaled f i j).InRange m.rows := ⟨hi, hj⟩
  have hundo : (addScaled (-f) i j).InRange m.rows := ⟨hi, hj⟩
  exact eq_of_apply_apply hm hop hundo (act_addScaled_neg f hij m.value)
    (run_rowOp_eq_ok_iff.1 h) (run_rowOp_eq_ok_iff.1 h')

end InPlace

/-- **Row operations are elementary matrices.** An operation on rows of the matrix, carried out in
place, multiplies it by the elementary matrix from the left, or overflows and changes nothing. It
adds a multiple of one row to another or to itself, multiplies one row, or exchanges two, and keeps
all other rows. An exchange always succeeds and undoes itself; a multiple that is added to another
row is taken away again by its opposite. The determinant is kept, multiplied by the factor, or
negated. -/
theorem rowOps_elementary {m : Mat} (hm : m.WellFormed) {i j : ℕ} (hi : i < m.rows)
    (hj : j < m.rows) (f : Fraction) :
    (∀ op : RowOp, op.InRange m.rows →
      ((∃ n, (rowOp op).run m = .ok () n) ∨ (rowOp op).run m = .error .overflow m) ∧
      ∀ n, (rowOp op).run m = .ok () n → n.WellFormed ∧ n.rows = m.rows ∧ n.cols = m.cols ∧
        n.toMatrix m.rows m.cols = op.matrix m.rows * m.toMatrix m.rows m.cols) ∧
    (∀ n, (rowOp (.addScaled f i j)).run m = .ok () n →
      n.value j = m.value j + f.toRat • m.value i ∧
      (i = j → n.value j = (1 + f.toRat) • m.value j) ∧ (∀ k, k ≠ j → n.line k = m.line k) ∧
      (i ≠ j → (n.toMatrix m.rows m.rows).det = (m.toMatrix m.rows m.rows).det)) ∧
    (∀ n, (rowOp (.scale f i)).run m = .ok () n →
      n.value i = f.toRat • m.value i ∧ (∀ k, k ≠ i → n.line k = m.line k) ∧
      (n.toMatrix m.rows m.rows).det = f.toRat * (m.toMatrix m.rows m.rows).det) ∧
    (∃ n, (rowOp (.swap i j)).run m = .ok () n ∧
      n.line i = m.line j ∧ n.line j = m.line i ∧
      (∀ k, k ≠ i → k ≠ j → n.line k = m.line k) ∧
      (rowOp (.swap i j)).run n = .ok () m ∧
      (i ≠ j → (n.toMatrix m.rows m.rows).det = -(m.toMatrix m.rows m.rows).det)) ∧
    (i ≠ j → ∀ n k, (rowOp (.addScaled f i j)).run m = .ok () n →
      (rowOp (.addScaled (-f) i j)).run n = .ok () k → k = m) :=
  ⟨fun _ hop => run_rowOp_outcomes hm hop, fun _ h => of_run_addScaled hm hi hj h,
    fun _ h => of_run_scale hm hi h, exists_run_swap hm hi hj,
    fun hij _ _ h h' => eq_of_run_addScaled_neg hm hi hj hij h h'⟩

/-- A row is added to the one above and to itself, multiplied, and exchanged with the one above. -/
theorem rowOps_elementary_two_by_two :
    let x : Fraction := ⟨3, 1, by decide, by decide, by decide⟩
    let f : Fraction := ⟨1, 2, by decide, by decide, by decide⟩
    let y : Fraction := ⟨3, 2, by decide, by decide, by decide⟩
    let z : Fraction := ⟨7, 2, by decide, by decide, by decide⟩
    let m : Mat := ⟨2, 2, [[x, 1], [1, 0]]⟩
    let n : Mat := ⟨2, 2, [[z, 1], [1, 0]]⟩
    let k : Mat := ⟨2, 2, [[x, 1], [y, 0]]⟩
    let l : Mat := ⟨2, 2, [[x, 1], [f, 0]]⟩
    m.WellFormed ∧
      (rowOp (.addScaled f 1 0)).run m = .ok () n ∧
      n.toMatrix 2 2 = (addScaled f 1 0).matrix 2 * m.toMatrix 2 2 ∧
      n.value 0 = m.value 0 + f.toRat • m.value 1 ∧ n.line 1 = m.line 1 ∧
      (n.toMatrix 2 2).det = (m.toMatrix 2 2).det ∧
      (∃ p, (rowOp (.addScaled (-f) 1 0)).run n = .ok () p ∧ p = m) ∧
      (rowOp (.addScaled f 1 1)).run m = .ok () k ∧ k.value 1 = (1 + f.toRat) • m.value 1 ∧
      (rowOp (.scale f 1)).run m = .ok () l ∧ l.value 1 = f.toRat • m.value 1 ∧
      (l.toMatrix 2 2).det = f.toRat * (m.toMatrix 2 2).det ∧
      ∃ o, (rowOp (.swap 1 0)).run m = .ok () o ∧ o.line 0 = m.line 1 ∧
        (rowOp (.swap 1 0)).run o = .ok () m ∧
        (o.toMatrix 2 2).det = -(m.toMatrix 2 2).det := by
  intro x f y z m n k l
  have hm : m.WellFormed := ⟨rfl, by simp [m]⟩
  have hrange : (addScaled f 1 0).InRange m.rows := ⟨by decide, by decide⟩
  have hn : (rowOp (.addScaled f 1 0)).run m = .ok () n := run_rowOp_of_ok (by decide +kernel)
  have hback : (rowOp (.addScaled (-f) 1 0)).run n = .ok () m :=
    run_rowOp_of_ok (by decide +kernel)
  have hk : (rowOp (.addScaled f 1 1)).run m = .ok () k := run_rowOp_of_ok (by decide +kernel)
  have hl : (rowOp (.scale f 1)).run m = .ok () l := run_rowOp_of_ok (by decide +kernel)
  obtain ⟨hall, hadd, hscale, ⟨o, ho, -, hrow, -, hagain, hsign⟩, hundo⟩ :=
    rowOps_elementary hm (show 1 < 2 by decide) (show 0 < 2 by decide) f
  obtain ⟨-, hself, -⟩ := rowOps_elementary hm (show 1 < 2 by decide) (show 1 < 2 by decide) f
  obtain ⟨hvalue, -, hkeep, hdet⟩ := hadd n hn
  obtain ⟨-, -, -, hmatrix⟩ := (hall (.addScaled f 1 0) hrange).2 n hn
  obtain ⟨hscaled, -, hfactor⟩ := hscale l hl
  exact ⟨hm, hn, hmatrix, hvalue, hkeep 1 (by decide), hdet (by decide),
    ⟨m, hback, hundo (by decide) n m hn hback⟩, hk, (hself k hk).2.1 rfl, hl, hscaled, hfactor,
    o, ho, hrow, hagain, hsign (by decide)⟩

end ExactLinAlg
