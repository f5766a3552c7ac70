import ExactLinAlg.Proofs.Entries

/-!
# Matrices side by side

`Mat.beside m n` is the matrix with the columns of `n` to the right of those of `m`, as `Mat.hstack`
gives it for matrices of as many rows. A row operation works on `m.beside n` as it works on `m` and
then on `n`, and fails for the reason of the first one that fails (`Mat.apply_beside`).
-/

namespace ExactLinAlg

/-! ## Vectors in two parts -/

namespace Vec

theorem combine_append {op : Fraction → Fraction → Except Error Fraction} {v v' w w' : Vec}
    (hv : v.length = w.length) (hv' : v'.length = w'.length) :
    combine op (v ++ v') (w ++ w') =
      do return (← combine op v w) ++ (← combine op v' w') := by
  have hlen : (v ++ v').length = (w ++ w').length := by
    rw [List.length_append, List.length_append, hv, hv']
  simp only [combine, checkDims, if_pos hlen, if_pos hv, if_pos hv']
  rw [List.zip_append hv]
  exact List.mapM_append

theorem scale_append (v w : Vec) (f : Fraction) :
    scale (v ++ w) f = do return (← scale v f) ++ (← scale w f) :=
  List.mapM_append

theorem addScaled_append {v v' w w' : Vec} (f : Fraction) (hv : v.length = w.length)
    (hv' : v'.length = w'.length) :
    addScaled (v ++ v') f (w ++ w') =
      do return (← addScaled v f w) ++ (← addScaled v' f w') :=
  combine_append hv hv'

theorem entry_append {v : Vec} {j : ℕ} (h : j < v.length) (w : Vec) :
    entry (v ++ w) j = entry v j := by
  rw [entry, entry, List.getElem?_append_left h]

end Vec

/-! ## Matrices side by side -/

namespace Mat

/-- The matrix with the columns of `n` to the right of those of `m`, which has as many rows. -/
def beside (m n : Mat) : Mat := ⟨m.rows, m.cols + n.cols, List.zipWith (· ++ ·) m.data n.data⟩

theorem hstack_eq_ok_iff {m n p : Mat} :
    m.hstack n = .ok p ↔ m.rows = n.rows ∧ p = m.beside n := by
  constructor
  · intro h
    obtain ⟨_, hdims, h⟩ := bind_eq_ok_iff.1 h
    cases h
    exact ⟨checkDims_eq_ok_iff.1 hdims, rfl⟩
  · rintro ⟨hrows, rfl⟩
    exact bind_eq_ok_iff.2 ⟨(), checkDims_eq_ok_iff.2 hrows, rfl⟩

theorem zipWith_append_set (l l' : List Vec) (i : ℕ) (row row' : Vec) :
    (List.zipWith (· ++ ·) l l').set i (row ++ row') =
      List.zipWith (· ++ ·) (l.set i row) (l'.set i row') := by
  induction l generalizing l' i with
  | nil => rfl
  | cons a l ih =>
    cases l' with
    | nil => cases i <;> rfl
    | cons a' l' =>
      cases i with
      | zero => rfl
      | succ i => exact congrArg _ (ih l' i)

theorem withLine_beside (m n : Mat) (i : ℕ) (row row' : Vec) :
    (m.beside n).withLine i (row ++ row') = (m.withLine i row).beside (n.withLine i row') := by
  simp only [beside, withLine, zipWith_append_set]

section Beside

variable {m n : Mat} (hm : m.WellFormed) (hn : n.WellFormed) (hrows : m.rows = n.rows)
include hm hn hrows

theorem wellFormed_beside : (m.beside n).WellFormed :=
  (hm.of_hstack hn (hstack_eq_ok_iff.2 ⟨hrows, rfl⟩)).1

theorem value_beside (i j : ℕ) :
    (m.beside n).value i j = if j < m.cols then m.value i j else n.value i (j - m.cols) :=
  value_hstack hm hn (hstack_eq_ok_iff.2 ⟨hrows, rfl⟩) i j

/-- A row of matrices side by side consists of the two rows, and exists where each of them does. -/
theorem line_beside (i : ℕ) :
    (∃ row row', m.line i = .ok row ∧ n.line i = .ok row' ∧ row.length = m.cols ∧
      row'.length = n.cols ∧ (m.beside n).line i = .ok (row ++ row')) ∨
    m.line i = .error .outOfRange ∧ (m.beside n).line i = .error .outOfRange := by
  rcases Nat.lt_or_ge i m.rows with hi | hi
  · have him : i < m.data.length := by rwa [hm.length_data]
    have hin : i < n.data.length := by rwa [hn.length_data, ← hrows]
    refine Or.inl ⟨m.data[i], n.data[i], ?_, ?_, hm.length_row _ (List.getElem_mem him),
      hn.length_row _ (List.getElem_mem hin), ?_⟩
    · rw [line, List.getElem?_eq_getElem him]
    · rw [line, List.getElem?_eq_getElem hin]
    · rw [line, beside, List.getElem?_zipWith, List.getElem?_eq_getElem him,
        List.getElem?_eq_getElem hin]
  · exact Or.inr ⟨hm.line_of_le hi, (wellFormed_beside hm hn hrows).line_of_le hi⟩

theorem entry_beside (i : ℕ) {j : ℕ} (hj : j < m.cols) :
    m.entry i j = (m.beside n).entry i j := by
  rcases line_beside hm hn hrows i with ⟨row, row', hrow, -, hlen, -, hboth⟩ | ⟨hrow, hboth⟩
  · rw [entry, entry, hboth, hrow]
    exact (Vec.entry_append (hlen ▸ hj) row').symm
  · rw [entry, entry, hboth, hrow]

/-- A row operation works on matrices side by side as on one and then on the other. -/
theorem apply_beside (op : RowOp) :
    op.apply (m.beside n) = do return (← op.apply m).beside (← op.apply n) := by
  have hline := line_beside hm hn hrows
  cases op with
  | swap i j =>
    rcases hline i with ⟨upper, upper', hi, hi', -, -, hboth⟩ | ⟨hi, hboth⟩
    · rcases hline j with ⟨lower, lower', hj, hj', -, -, hboth'⟩ | ⟨hj, hboth'⟩
      · simp only [RowOp.apply, hi, hi', hj, hj', hboth, hboth', bind, Except.bind]
        rw [withLine_beside, withLine_beside]
        rfl
      · simp only [RowOp.apply, hi, hj, hboth, hboth', bind, Except.bind]
    · simp only [RowOp.apply, hi, hboth, bind, Except.bind]
  | scale f i =>
    rcases hline i with ⟨row, row', hi, hi', -, -, hboth⟩ | ⟨hi, hboth⟩
    · simp only [RowOp.apply, hi, hi', hboth, Vec.scale_append, bind, Except.bind]
      cases Vec.scale row f with
      | error e => rfl
      | ok scaled =>
        cases Vec.scale row' f with
        | error e => rfl
        | ok scaled' => exact congrArg Except.ok (withLine_beside m n i scaled scaled')
    · simp only [RowOp.apply, hi, hboth, bind, Except.bind]
  | addScaled f source target =>
    rcases hline source with ⟨added, added', hs, hs', hlen, hlen', hboth⟩ | ⟨hs, hboth⟩
    · rcases hline target with ⟨row, row', ht, ht', hrow, hrow', hboth'⟩ | ⟨ht, hboth'⟩
      · have hsum := Vec.addScaled_append f (hrow.trans hlen.symm) (hrow'.trans hlen'.symm)
        simp only [RowOp.apply, hs, hs', ht, ht', hboth, hboth', hsum, bind, Except.bind]
        cases Vec.addScaled row f added with
        | error e => rfl
        | ok sum =>
          cases Vec.addScaled row' f added' with
          | error e => rfl
          | ok sum' => exact congrArg Except.ok (withLine_beside m n target sum sum')
      · simp only [RowOp.apply, hs, ht, hboth, hboth', bind, Except.bind]
    · simp only [RowOp.apply, hs, hboth, bind, Except.bind]

end Beside

theorem beside_injective {m k l : Mat} (hm : m.WellFormed) (hk : k.WellFormed) (hl : l.WellFormed)
    (hkr : m.rows = k.rows) (hlr : m.rows = l.rows) (h : m.beside k = m.beside l) : k = l := by
  apply ext_value hk hl (hkr.symm.trans hlr)
  · exact Nat.add_left_cancel (congrArg Mat.cols h)
  · intro i j
    have hright : ∀ n : Mat, n.WellFormed → m.rows = n.rows →
        n.value i j = (m.beside n).value i (m.cols + j) := by
      intro n hn hnr
      rw [value_beside hm hn hnr, if_neg (Nat.not_lt.2 (Nat.le_add_right _ _)),
        Nat.add_sub_cancel_left]
    rw [hright k hk hkr, hright l hl hlr, h]

end Mat

end ExactLinAlg
