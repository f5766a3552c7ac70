import ExactLinAlg.Proofs.Augmented
import ExactLinAlg.Proofs.PivotSearch

/-!
# Elimination of an echelon form

Elimination leaves an echelon form as it is, and cannot overflow on it. Below the pivots there are
zeros only, and the search for a pivot compares zeros with the entry that it starts from, which fits
whatever this entry is (`Mat.selectPivot_of_zero_below`). The pivots are ones, so their rows are
multiplied by one (`Tableau.apply_scale_one`), and no entry is to be cleared. So the forward pass
finds the pivots one by one and changes nothing (`Tableau.forward_of_staircase`), and the upward
pass starts from the same tableau as in the elimination that the echelon form comes from.
-/

namespace ExactLinAlg

/-- A loop whose steps change nothing. -/
theorem foldlM_of_fixed {α σ : Type} {f : σ → α → Except Error σ} {l : List α} {s : σ}
    (h : ∀ a ∈ l, f s a = .ok s) : l.foldlM f s = .ok s := by
  induction l with
  | nil => rfl
  | cons a l ih =>
    rw [List.foldlM_cons, h a List.mem_cons_self]
    exact ih fun b hb => h b (List.mem_cons_of_mem a hb)

/-! ## The search for a pivot above zeros -/

namespace Mat

variable {m : Mat} (hm : m.WellFormed) {col : ℕ} (hcol : col < m.cols)
include hm hcol

/-- Above zeros the search ends where it starts. -/
theorem selectPivot_of_zero_below {top : ℕ} (htop : top < m.rows) (hne : m.value top col ≠ 0)
    (hzero : ∀ i, top < i → m.value i col = 0) :
    (m.selectPivot col top).outcome = .ok (some top) := by
  rw [selectPivot_eq_ok_iff hm hcol]
  constructor
  · refine ⟨le_rfl, htop, hne, fun i hi => ?_, fun i hi hlt => absurd hi hlt.not_ge⟩
    rcases hi.eq_or_lt with rfl | hlt
    · exact le_rfl
    · rw [hzero i hlt, abs_zero]
      exact abs_nonneg _
  · intro i x y hxy
    exact hxy.comparable_of_zero (hzero i hxy.top_lt)

end Mat

/-! ## Multiplication by one -/

theorem Vec.scale_one (v : Vec) : Vec.scale v 1 = .ok v := by
  induction v with
  | nil => rfl
  | cons x v ih =>
    exact mapM_cons_eq_ok_iff.2 ⟨x, v, Fraction.mul_one x, ih, rfl⟩

theorem RowOp.apply_scale_one {m : Mat} (hm : m.WellFormed) {i : ℕ} (hi : i < m.rows) :
    (RowOp.scale 1 i).apply m = .ok m := by
  have hlt : i < m.data.length := by rwa [hm.length_data]
  have hline : m.line i = .ok m.data[i] := by rw [Mat.line, List.getElem?_eq_getElem hlt]
  have hsame : m.withLine i m.data[i] = m := by rw [Mat.withLine, List.set_getElem_self]
  rw [RowOp.apply, hline]
  show (Vec.scale m.data[i] 1 >>= _) = _
  rw [Vec.scale_one]
  exact congrArg Except.ok hsame

namespace Tableau

section Steps

variable {r : ℕ} {t : Tableau} (ht : t.WellFormed r)
include ht

theorem apply_scale_one {row : ℕ} (hrow : row < r) :
    (t.apply (.scale 1 row)).outcome = .ok t := by
  have hmain := RowOp.apply_scale_one ht.main (ht.rows.symm ▸ hrow)
  obtain ⟨m, _ | k⟩ := t
  · rw [outcome_apply_none, hmain]
    rfl
  · obtain ⟨hk, hkrows⟩ := ht.companion k rfl
    rw [outcome_apply_some, hmain, RowOp.apply_scale_one hk (hkrows.symm ▸ hrow)]
    rfl

variable {col : ℕ} (hcol : col < t.main.cols)
include hcol

/-- Entries that are zero are not cleared. -/
theorem clear_of_zero (multiple : Fraction → Except Error Fraction) (row : ℕ) {l : List ℕ}
    (hl : ∀ i ∈ l, i < r ∧ t.main.value i col = 0) :
    (l.foldlM (clearEntry multiple col row) t).outcome = .ok t := by
  rw [Traced.outcome_foldlM]
  apply foldlM_of_fixed
  intro i hi
  obtain ⟨hir, hzero⟩ := hl i hi
  have hentry := Mat.entry_eq_ok ht.main hcol (ht.rows.symm ▸ hir) (x := 0)
    (hzero.trans Fraction.toRat_zero.symm)
  unfold clearEntry
  rw [Traced.outcome_bind, hentry]
  rfl

/-- A column of zeros has no pivot. -/
theorem reduceColumn_of_zero {row : ℕ} (hzero : ∀ i, row ≤ i → t.main.value i col = 0) :
    (t.reduceColumn col row).outcome = .ok none := by
  have hselect : (t.main.selectPivot col row).outcome = .ok none :=
    (Mat.selectPivot_eq_none_iff ht.main hcol).2 (Or.inr fun i hi _ => hzero i hi)
  have hfetch : (t.fetchPivot col row).outcome = .ok none := by
    rw [fetchPivot, Traced.outcome_bind, hselect]
    rfl
  rw [reduceColumn, Traced.outcome_bind, hfetch]
  rfl

/-- A column with a one above zeros is in echelon form. -/
theorem reduceColumn_of_unit {row : ℕ} (hone : t.main.value row col = 1)
    (hzero : ∀ i, row < i → t.main.value i col = 0) :
    (t.reduceColumn col row).outcome = .ok (some t) := by
  have hrow : row < r := row_lt_of_pivot ht (hone ▸ one_ne_zero)
  have hrows : row < t.main.rows := ht.rows.symm ▸ hrow
  have hone' : t.main.value row col = (1 : Fraction).toRat := hone.trans Fraction.toRat_one.symm
  have hselect : (t.main.selectPivot col row).outcome = .ok (some row) :=
    Mat.selectPivot_of_zero_below ht.main hcol hrows (hone ▸ one_ne_zero) hzero
  have hfetch : (t.fetchPivot col row).outcome = .ok (some (t, false)) := by
    refine Traced.outcome_bind_eq_ok_iff.2 ⟨some row, hselect, ?_⟩
    simp only [if_pos]
    rfl
  have hentry := Mat.entry_eq_ok ht.main hcol hrows hone'
  have hnormal : (t.normalizeRow col row).outcome = .ok t :=
    Traced.outcome_bind_eq_ok_iff.2 ⟨1, hentry,
      Traced.outcome_bind_eq_ok_iff.2 ⟨1, Fraction.recip_one, apply_scale_one ht hrow⟩⟩
  have hclear : (t.clearBelow opposite col row).outcome = .ok t := by
    apply clear_of_zero ht hcol
    intro i hi
    rw [List.mem_range'_1, ht.rows] at hi
    exact ⟨by omega, hzero i (by omega)⟩
  refine Traced.outcome_bind_eq_ok_iff.2 ⟨some (t, false), hfetch, ?_⟩
  refine Traced.outcome_bind_eq_ok_iff.2 ⟨t, hnormal, ?_⟩
  exact Traced.outcome_bind_eq_ok_iff.2 ⟨t, hclear, rfl⟩

end Steps

end Tableau

/-! ## The pivots before a column -/

/-- The pivots with numbers below `i` are those in the columns before `k`. -/
structure Passed (pivots : List ℕ) (k i : ℕ) : Prop where
  le : i ≤ pivots.length
  lt_iff : ∀ a (ha : a < pivots.length), a < i ↔ pivots[a] < k

namespace Staircase

variable {A : ℕ → ℕ → ℚ} {c k i : ℕ} {pivots : List ℕ} (h : Staircase A c pivots)
  (hi : Passed pivots k i)
include h hi

/-- A column with a pivot. -/
theorem passed_of_mem (hk : k ∈ pivots) :
    ∃ hlt : i < pivots.length, pivots[i] = k ∧ Passed pivots (k + 1) (i + 1) := by
  obtain ⟨a, ha, hak⟩ := List.getElem_of_mem hk
  have hia : i ≤ a := by
    by_contra hlt
    exact (ne_of_lt ((hi.lt_iff a ha).1 (Nat.not_le.1 hlt))) hak
  have hlt : i < pivots.length := hia.trans_lt ha
  have hik : k ≤ pivots[i] := by
    by_contra hik
    exact lt_irrefl i ((hi.lt_iff i hlt).2 (Nat.not_le.1 hik))
  obtain rfl : i = a := by
    rcases Nat.lt_or_eq_of_le hia with hia | hia
    · have hcol := h.getElem_lt hlt ha hia
      omega
    · exact hia
  refine ⟨hlt, hak, hlt, ?_⟩
  intro b hb
  rcases Nat.lt_trichotomy b i with hbi | rfl | hbi
  · have hcol := (hi.lt_iff b hb).1 hbi
    omega
  · omega
  · have hcol := h.getElem_lt hlt hb hbi
    omega

/-- A column without a pivot is zero from the next row on. -/
theorem passed_of_not_mem (hk : k ∉ pivots) (hkc : k < c) :
    Passed pivots (k + 1) i ∧ ∀ a, i ≤ a → A a k = 0 := by
  have hne : ∀ a (ha : a < pivots.length), pivots[a] ≠ k :=
    fun a ha hak => hk (hak ▸ List.getElem_mem ha)
  constructor
  · refine ⟨hi.le, ?_⟩
    intro a ha
    rw [hi.lt_iff a ha]
    have hcol := hne a ha
    omega
  · intro a hia
    rcases Nat.lt_or_ge a pivots.length with ha | ha
    · apply h.before a ha
      have hge := mt (hi.lt_iff a ha).2 (Nat.not_lt.2 hia)
      have hcol := hne a ha
      omega
    · exact h.rest a ha k hkc

omit hi in
/-- All pivots are before the end. -/
theorem eq_length_of_passed (hi : Passed pivots c i) : i = pivots.length := by
  rcases Nat.lt_or_eq_of_le hi.le with hlt | heq
  · exact absurd ((hi.lt_iff i hlt).2 (h.lt _ (List.getElem_mem hlt))) (lt_irrefl i)
  · exact heq

end Staircase

/-! ## The passes over an echelon form -/

namespace Tableau

variable {r : ℕ} {t : Tableau} (ht : t.WellFormed r) {pivots : List ℕ}
  (h : Staircase t.main.value t.main.cols pivots)
include ht h

/-- One column of an echelon form. -/
theorem advance_of_staircase {k i : ℕ} (hk : k < t.main.cols) (hi : Passed pivots k i) :
    ∃ i', Passed pivots (k + 1) i' ∧
      (advance (t, pivots.take i) k).outcome = .ok (t, pivots.take i') := by
  have hlen : (pivots.take i).length = i := by rw [List.length_take, Nat.min_eq_left hi.le]
  by_cases hmem : k ∈ pivots
  · obtain ⟨hlt, hik, hi'⟩ := h.passed_of_mem hi hmem
    refine ⟨i + 1, hi', ?_⟩
    have hreduce : (t.reduceColumn k (pivots.take i).length).outcome = .ok (some t) := by
      rw [hlen]
      apply reduceColumn_of_unit ht hk
      · rw [← hik]
        exact h.pivot i hlt
      · intro a ha
        rw [← hik]
        exact h.below hlt ha
    refine Traced.outcome_bind_eq_ok_iff.2 ⟨some t, hreduce, ?_⟩
    rw [List.take_succ_eq_append_getElem hlt, hik]
    rfl
  · obtain ⟨hi', hzero⟩ := h.passed_of_not_mem hi hmem hk
    refine ⟨i, hi', ?_⟩
    have hreduce : (t.reduceColumn k (pivots.take i).length).outcome = .ok none := by
      rw [hlen]
      exact reduceColumn_of_zero ht hk hzero
    exact Traced.outcome_bind_eq_ok_iff.2 ⟨none, hreduce, rfl⟩

/-- The forward pass finds the pivots of an echelon form and changes nothing. -/
theorem forward_of_staircase : t.forward.outcome = .ok (t, pivots) := by
  have hrun : Ends Error.Never
      (fun s : Tableau × List ℕ => ∃ i, Passed pivots t.main.cols i ∧ s = (t, pivots.take i))
      t.forward.outcome := by
    apply Traced.ends_foldlM_range
      (I := fun k (s : Tableau × List ℕ) => ∃ i, Passed pivots k i ∧ s = (t, pivots.take i))
    · refine ⟨0, ⟨Nat.zero_le _, ?_⟩, rfl⟩
      intro a _
      simp
    · rintro k hk _ ⟨i, hi, rfl⟩
      obtain ⟨i', hi', hadvance⟩ := advance_of_staircase ht h hk hi
      rw [hadvance]
      exact ⟨i', hi', rfl⟩
  obtain ⟨_, hforward, i, hi, rfl⟩ := hrun.exists_ok
  rw [hforward, h.eq_length_of_passed hi, List.take_length]

/-- The upward pass has nothing to clear in a reduced form. -/
theorem upward_of_clean (hclean : CleanFrom t.main.value pivots 0) :
    (t.upward pivots).outcome = .ok t := by
  rw [upward, Traced.outcome_foldlM]
  apply foldlM_of_fixed
  rintro ⟨p, s⟩ hmem
  have hget : pivots[s]? = some p := List.mem_zipIdx_iff_getElem?.1 (List.mem_reverse.1 hmem)
  obtain ⟨hs, rfl⟩ := List.getElem?_eq_some_iff.1 hget
  have hrow : s < r := row_lt_of_pivot ht (h.pivot s hs ▸ one_ne_zero)
  apply clear_of_zero ht (h.lt _ (List.getElem_mem hs))
  intro i hi
  have his := List.mem_range.1 hi
  exact ⟨his.trans hrow, hclean s hs (Nat.zero_le s) i his⟩

end Tableau

/-! ## Elimination once and again -/

namespace Mat

/-- The reduced form is what the upward pass makes of the echelon form. -/
theorem gauss_true_of_forward {p : Mat} {t : Tableau} {pivots : List ℕ}
    (h : (Tableau.forward ⟨p, none⟩).outcome = .ok (t, pivots)) :
    (p.gauss true).outcome = do return (pivots, (← (t.upward pivots).outcome).main) := by
  rw [gauss, Tableau.eliminate, Traced.outcome_bind, Traced.outcome_bind, h]
  show (Traced.outcome (t.upward pivots >>= _) >>= _) = _
  rw [Traced.outcome_bind]
  cases (t.upward pivots).outcome <;> rfl

theorem gauss_of_forward_error {p : Mat} {e : Error}
    (h : (Tableau.forward ⟨p, none⟩).outcome = .error e) (full : Bool) :
    (p.gauss full).outcome = .error e := by
  rw [gauss, Tableau.eliminate, Traced.outcome_bind, Traced.outcome_bind, h]
  rfl

section Staircase

variable {n : Mat} (hn : n.WellFormed) {pivots : List ℕ} (h : Staircase n.value n.cols pivots)
include hn h

theorem gauss_false_of_staircase : (n.gauss false).outcome = .ok (pivots, n) :=
  gauss_of_forward (Tableau.forward_of_staircase (tableau_wellFormed hn) h)

theorem gauss_true_of_clean (hclean : CleanFrom n.value pivots 0) :
    (n.gauss true).outcome = .ok (pivots, n) := by
  have ht := tableau_wellFormed hn
  rw [gauss_true_of_forward (Tableau.forward_of_staircase ht h),
    Tableau.upward_of_clean ht h hclean]
  rfl

end Staircase

variable {m : Mat} (hm : m.WellFormed)
include hm

/-- The echelon form is the result of the forward pass. -/
theorem forward_of_gauss {pivots : List ℕ} {n : Mat}
    (h : (m.gauss false).outcome = .ok (pivots, n)) :
    (Tableau.forward ⟨m, none⟩).outcome = .ok (⟨n, none⟩, pivots) := by
  obtain ⟨⟨main, companion⟩, helim, rfl⟩ := gauss_eq_ok_iff.1 h
  obtain ⟨_, hforward, rfl⟩ := Tableau.eliminate_eq_ok_iff.1 helim
  obtain ⟨⟨d, -, P, -, -, hcomp⟩, -⟩ :=
    (Tableau.ends_forward (tableau_wellFormed hm)).of_ok hforward
  cases hcomp
  exact hforward

/-- **Elimination once and again.** Elimination leaves an echelon form as it is, and the full
elimination a reduced form, without an overflow. A failure to find the echelon form is one to find
the reduced form. Otherwise the full elimination ends on the echelon form as it does on the matrix,
with the same reduced form or the same overflow. -/
theorem gauss_idempotent :
    (∀ full pivots n, (m.gauss full).outcome = .ok (pivots, n) →
      (n.gauss false).outcome = .ok (pivots, n) ∧
      (full = true → (n.gauss true).outcome = .ok (pivots, n))) ∧
    (∀ e, (m.gauss false).outcome = .error e → (m.gauss true).outcome = .error e) ∧
    ∀ pivots n, (m.gauss false).outcome = .ok (pivots, n) →
      (n.gauss true).outcome = (m.gauss true).outcome ∧
      ((∃ q, (m.gauss true).outcome = .ok (pivots, q)) ∨
        (m.gauss true).outcome = .error .overflow) := by
  refine ⟨?_, ?_, ?_⟩
  · intro full pivots n h
    obtain ⟨hequiv, hstairs, hclean⟩ := (ends_gauss hm full).of_ok h
    have hn := hequiv.wellFormed.main
    rw [← hequiv.cols] at hstairs
    exact ⟨gauss_false_of_staircase hn hstairs,
      fun hfull => gauss_true_of_clean hn hstairs (hclean hfull)⟩
  · intro e h
    cases hforward : (Tableau.forward ⟨m, none⟩).outcome with
    | ok s =>
      rw [gauss_of_forward hforward] at h
      cases h
    | error e' =>
      rw [gauss_of_forward_error hforward] at h
      cases h
      exact gauss_of_forward_error hforward true
  · intro pivots n h
    have hforward := forward_of_gauss hm h
    obtain ⟨hequiv, hstairs, -⟩ := (ends_gauss hm false).of_ok h
    have hn := hequiv.wellFormed.main
    rw [← hequiv.cols] at hstairs
    have hagain := Tableau.forward_of_staircase (tableau_wellFormed hn) hstairs
    refine ⟨(gauss_true_of_forward hagain).trans (gauss_true_of_forward hforward).symm, ?_⟩
    cases hfull : (m.gauss true).outcome with
    | ok s =>
      obtain ⟨pivots', q⟩ := s
      exact Or.inl ⟨q, by rw [pivots_of_gauss hforward hfull]⟩
    | error e => exact Or.inr (congrArg Except.error ((ends_gauss hm true).of_error hfull))

omit hm in
/-- The forward pass exchanges two rows here, and the upward pass adds `2 ^ 62` to itself: it fails
on the matrix and on its echelon form. In the other matrix the first column has no pivot. -/
theorem gauss_idempotent_near_overflow :
    let x : Fraction := ⟨4611686018427387904, 1, Word.one_pos, by decide, by decide⟩
    let m : Mat := ⟨3, 4, [[0, 1, 0, x], [1, 1, -1, x], [0, 0, 1, x]]⟩
    let n : Mat := ⟨3, 4, [[1, 1, -1, x], [0, 1, 0, x], [0, 0, 1, x]]⟩
    let k : Mat := ⟨2, 3, [[0, -1, x], [0, 1, -x]]⟩
    let l : Mat := ⟨2, 3, [[0, 1, -x], [0, 0, 0]]⟩
    m.WellFormed ∧ (m.gauss false).outcome = .ok ([0, 1, 2], n) ∧
      (n.gauss false).outcome = .ok ([0, 1, 2], n) ∧
      (m.gauss true).outcome = .error .overflow ∧ (n.gauss true).outcome = .error .overflow ∧
      k.WellFormed ∧ (k.gauss true).outcome = .ok ([1], l) ∧
      (l.gauss true).outcome = .ok ([1], l) := by
  intro x m n k l
  have hm : m.WellFormed := ⟨rfl, by decide⟩
  have hk : k.WellFormed := ⟨rfl, by decide⟩
  have hforward : (m.gauss false).outcome = .ok ([0, 1, 2], n) := by
    decide +kernel
  have hoverflow : (m.gauss true).outcome = .error .overflow := by
    decide +kernel
  have hfull : (k.gauss true).outcome = .ok ([1], l) := by
    decide +kernel
  obtain ⟨hagain, -, hcompose⟩ := gauss_idempotent hm
  refine ⟨hm, hforward, (hagain false _ n hforward).1, hoverflow, ?_, hk, hfull, ?_⟩
  · rw [(hcompose _ n hforward).1, hoverflow]
  · exact ((gauss_idempotent hk).1 true _ l hfull).2 rfl

end Mat

end ExactLinAlg
