import ExactLinAlg.Proofs.Pivot
import ExactLinAlg.Proofs.VecOrder

/-!
# When the search for a pivot overflows

The search compares the entry of each row with the best one so far, and as long as nothing has
overflowed, that is the largest absolute value of the rows before. So the two sides of each
comparison are known from the matrix (`Mat.Compares`), and the search overflows exactly if one of
these pairs cannot be compared (`Mat.overflowsIff_selectPivot`). If not, it gives the only answer
that `Mat.IsPivot` allows (`Mat.selectPivot_eq_ok_iff`).
-/

namespace ExactLinAlg.Mat

/-- In row `i`, the search in column `col` from row `top` on compares `x` with `y`, the absolute
value of the entry with the largest one in the rows before. -/
structure Compares (m : Mat) (col top i : ℕ) (x y : Fraction) : Prop where
  lt_rows : i < m.rows
  value_eq : x.toRat = |m.value i col|
  isGreatest : IsGreatest ((fun j => |m.value j col|) '' Set.Ico top i) y.toRat

variable {m : Mat} {col top i : ℕ} {x y : Fraction} {best : ℕ × Fraction}

theorem Compares.top_lt (h : m.Compares col top i x y) : top < i := by
  obtain ⟨j, hj, -⟩ := h.isGreatest.1
  exact hj.1.trans_lt hj.2

theorem IsLargest.isGreatest (h : m.IsLargest col top i best) :
    IsGreatest ((fun j => |m.value j col|) '' Set.Ico top i) best.2.toRat := by
  refine ⟨⟨best.1, ⟨h.top_le, h.lt_bound⟩, h.value_eq.symm⟩, ?_⟩
  rintro _ ⟨j, ⟨hj, hji⟩, rfl⟩
  exact h.le_best j hj hji

/-- A row is compared with the best entry so far. -/
theorem IsLargest.compares_iff (h : m.IsLargest col top i best) (hi : i < m.rows) {a : Fraction}
    (ha : a.toRat = |m.value i col|) : m.Compares col top i x y ↔ x = a ∧ y = best.2 := by
  constructor
  · intro hxy
    exact ⟨Fraction.toRat_injective (hxy.value_eq.trans ha.symm),
      Fraction.toRat_injective (hxy.isGreatest.unique h.isGreatest)⟩
  · rintro ⟨rfl, rfl⟩
    exact ⟨hi, ha, h.isGreatest⟩

/-- A zero can be compared with whatever is the largest. -/
theorem Compares.comparable_of_zero (h : m.Compares col top i x y) (hzero : m.value i col = 0) :
    x.Comparable y := by
  have hx : x.toRat = 0 := by
    rw [h.value_eq, hzero, abs_zero]
  rw [Fraction.isZero_iff.1 (Fraction.toRat_eq_zero_iff.1 hx)]
  exact Fraction.comparable_zero y

/-- A search may give one answer only. -/
theorem IsPivot.unique {p q : Option ℕ} (hp : m.IsPivot col top p) (hq : m.IsPivot col top q) :
    p = q := by
  cases p with
  | none =>
    cases q with
    | none => rfl
    | some q => exact absurd (hp q hq.1) hq.2.2.1
  | some p =>
    cases q with
    | none => exact absurd (hq p hp.1) hp.2.2.1
    | some q =>
      obtain ⟨hple, -, -, hpmax, hpfirst⟩ := hp
      obtain ⟨hqle, -, -, hqmax, hqfirst⟩ := hq
      rcases lt_trichotomy p q with hpq | rfl | hpq
      · exact absurd (hpmax q hqle) (hqfirst p hple hpq).not_ge
      · rfl
      · exact absurd (hqmax p hple) (hpfirst q hqle hpq).not_ge

section Search

variable (hm : m.WellFormed) (hcol : col < m.cols)
include hm hcol

/-- One more row. -/
theorem overflowsIff_betterPivot (h : m.IsLargest col top i best) (hi : i < m.rows) :
    OverflowsIff (∃ x y, m.Compares col top i x y ∧ ¬ x.Comparable y)
      (m.betterPivot col best i) := by
  obtain ⟨a, ha, hvalue⟩ := (ends_entry_abs hm hcol hi (E := Error.Never)).exists_ok
  have hfails : (∃ x y, m.Compares col top i x y ∧ ¬ x.Comparable y) ↔
      ¬ a.abs.Comparable best.2 := by
    constructor
    · rintro ⟨x, y, hxy, hfail⟩
      obtain ⟨rfl, rfl⟩ := (h.compares_iff hi hvalue).1 hxy
      exact hfail
    · intro hfail
      exact ⟨a.abs, best.2, (h.compares_iff hi hvalue).2 ⟨rfl, rfl⟩, hfail⟩
  have hcompare := (Fraction.overflowsIff_compare a.abs best.2).congr not_and_or.symm
  rw [betterPivot, ha]
  refine OverflowsIff.congr (hcompare.bind_of_exists ?_) hfails.symm
  intro o
  cases o with
  | gt => exact ⟨_, rfl⟩
  | lt => exact ⟨_, rfl⟩
  | eq => exact ⟨_, rfl⟩

theorem overflowsIff_largestEntry (htop : top < m.rows) :
    OverflowsIff (∃ i x y, m.Compares col top i x y ∧ ¬ x.Comparable y)
      (m.largestEntry col top) := by
  obtain ⟨a, ha, hvalue⟩ := (ends_entry_abs hm hcol htop (E := Error.Never)).exists_ok
  have hrun : OverflowsIff
      (∃ i, top + 1 ≤ i ∧ i < m.rows ∧ ∃ x y, m.Compares col top i x y ∧ ¬ x.Comparable y)
      (m.largestEntry col top) := by
    rw [largestEntry, ha]
    apply OverflowsIff.foldlM_range' htop (isLargest_start hvalue)
    · intro i _ hi best hbest
      exact overflowsIff_betterPivot hm hcol hbest hi
    · intro i _ hi best hbest
      exact (ends_betterPivot hm hcol hbest hi).weaken fun _ _ => trivial
  apply hrun.congr
  constructor
  · rintro ⟨i, -, -, h⟩
    exact ⟨i, h⟩
  · rintro ⟨i, x, y, hxy, hfail⟩
    exact ⟨i, hxy.top_lt, hxy.lt_rows, x, y, hxy, hfail⟩

/-- The search overflows if one of its comparisons does. -/
theorem overflowsIff_selectPivot (top : ℕ) :
    OverflowsIff (∃ i x y, m.Compares col top i x y ∧ ¬ x.Comparable y)
      (m.selectPivot col top).outcome := by
  unfold selectPivot
  by_cases htop : m.rows ≤ top
  · rw [if_pos htop]
    apply OverflowsIff.of_ok
    rintro ⟨i, x, y, hxy, -⟩
    exact absurd (hxy.top_lt.trans hxy.lt_rows) htop.not_gt
  · rw [if_neg htop, Traced.outcome_bind]
    apply (overflowsIff_largestEntry hm hcol (Nat.not_le.1 htop)).bind_of_exists
    intro best
    exact ⟨_, rfl⟩

/-- The answer of a search that does not overflow is the only one that it may give. -/
theorem selectPivot_eq_ok_iff {p : Option ℕ} :
    (m.selectPivot col top).outcome = .ok p ↔
      m.IsPivot col top p ∧ ∀ i x y, m.Compares col top i x y → x.Comparable y := by
  have hends := ends_selectPivot hm hcol top
  have hoverflow := overflowsIff_selectPivot hm hcol top
  constructor
  · intro h
    refine ⟨hends.of_ok h, fun i x y hxy => ?_⟩
    by_contra hfail
    exact hoverflow.2.1 ⟨p, h⟩ ⟨i, x, y, hxy, hfail⟩
  · rintro ⟨hp, hfits⟩
    obtain ⟨q, hq⟩ := hoverflow.2.2 fun ⟨i, x, y, hxy, hfail⟩ => hfail (hfits i x y hxy)
    rw [hq, (hends.of_ok hq).unique hp]

/-- A search among zeros does not overflow. -/
theorem selectPivot_eq_none_iff :
    (m.selectPivot col top).outcome = .ok none ↔
      m.rows ≤ top ∨ ∀ i, top ≤ i → i < m.rows → m.value i col = 0 := by
  rw [selectPivot_eq_ok_iff hm hcol]
  constructor
  · rintro ⟨hzero, -⟩
    exact Or.inr fun i hi _ => hzero i hi
  · intro h
    have hzero : ∀ i, top ≤ i → m.value i col = 0 := by
      intro i hi
      rcases Nat.lt_or_ge i m.rows with hlt | hge
      · exact h.elim (fun hle => absurd hlt (hle.trans hi).not_gt) fun hall => hall i hi hlt
      · exact hm.value_of_rows_le hge col
    exact ⟨hzero, fun i x y hxy => hxy.comparable_of_zero (hzero i hxy.top_lt.le)⟩

/-- **The choice of a pivot.** If the search in a column finds a row, it is one of the rows from
`top` on, with an entry other than zero whose absolute value is at least that of the other rows and
larger than that of the rows from `top` to the one before it. The search finds none exactly if there
are no rows from `top` on or only zeros in them. It fails with an overflow only, and exactly if the
absolute value of the entry of some row and the largest absolute value of the rows from `top` to the
one before have a cross product that is no word. -/
theorem selectPivot_exact (top : ℕ) :
    (∀ p, (m.selectPivot col top).outcome = .ok (some p) →
      top ≤ p ∧ p < m.rows ∧ m.value p col ≠ 0 ∧
      (∀ i, top ≤ i → i < m.rows → |m.value i col| ≤ |m.value p col|) ∧
      ∀ i, top ≤ i → i < p → |m.value i col| < |m.value p col|) ∧
    ((m.selectPivot col top).outcome = .ok none ↔
      m.rows ≤ top ∨ ∀ i, top ≤ i → i < m.rows → m.value i col = 0) ∧
    OverflowsIff (∃ i x y, m.Compares col top i x y ∧ ¬ x.Comparable y)
      (m.selectPivot col top).outcome := by
  refine ⟨fun p hp => ?_, selectPivot_eq_none_iff hm hcol, overflowsIff_selectPivot hm hcol top⟩
  obtain ⟨hle, hlt, hne, hmax, hfirst⟩ := (ends_selectPivot hm hcol top).of_ok hp
  exact ⟨hle, hlt, hne, fun i hi _ => hmax i hi, hfirst⟩

end Search

/-- Entries that differ in sign only, a column of zeros, and an entry that can be compared with the
one above it but not with the largest one. -/
theorem selectPivot_exact_three_by_three :
    let x : Fraction := ⟨9223372036854775807, 1, Word.one_pos, by decide, by decide⟩
    let y : Fraction := ⟨1, 2, by decide, by decide, by decide⟩
    let m : Mat := ⟨3, 3, [[y, 0, x], [-1, 0, 1], [1, 0, y]]⟩
    m.WellFormed ∧ 0 < m.cols ∧ (m.selectPivot 0 0).outcome = .ok (some 1) ∧
      (∀ i, 0 ≤ i → i < m.rows → |m.value i 0| ≤ |m.value 1 0|) ∧
      (∀ i, 0 ≤ i → i < 1 → |m.value i 0| < |m.value 1 0|) ∧
      1 < m.cols ∧ (m.selectPivot 1 1).outcome = .ok none ∧
      (m.selectPivot 1 3).outcome = .ok none ∧
      2 < m.cols ∧ y.Comparable 1 ∧ m.Compares 2 0 2 y x ∧ ¬ y.Comparable x ∧
      (m.selectPivot 2 0).outcome = .error .overflow ∧
      (m.selectPivot 2 1).outcome = .ok (some 1) ∧ m.value 1 2 ≠ 0 := by
  intro x y m
  have hm : m.WellFormed := ⟨rfl, by decide⟩
  have hpivot : (m.selectPivot 0 0).outcome = .ok (some 1) := by
    decide +kernel
  have hbelow : (m.selectPivot 2 1).outcome = .ok (some 1) := by
    decide +kernel
  have hcompares : m.Compares 2 0 2 y x := by
    refine ⟨by decide, by decide +kernel, ⟨0, by decide, by decide +kernel⟩, ?_⟩
    rintro _ ⟨j, ⟨-, hj⟩, rfl⟩
    interval_cases j <;> decide +kernel
  have hfail : ¬ y.Comparable x := by
    decide
  obtain ⟨hfound, -⟩ := selectPivot_exact hm (show 0 < m.cols by decide) 0
  obtain ⟨-, hzeros, -⟩ := selectPivot_exact hm (show 1 < m.cols by decide) 1
  obtain ⟨-, hnorows, -⟩ := selectPivot_exact hm (show 1 < m.cols by decide) 3
  obtain ⟨-, -, hoverflow⟩ := selectPivot_exact hm (show 2 < m.cols by decide) 0
  obtain ⟨hfound', -⟩ := selectPivot_exact hm (show 2 < m.cols by decide) 1
  obtain ⟨-, -, -, hmax, hfirst⟩ := hfound 1 hpivot
  obtain ⟨-, -, hne, -⟩ := hfound' 1 hbelow
  have hzero : ∀ i, 1 ≤ i → i < m.rows → m.value i 1 = 0 := by
    decide +kernel
  exact ⟨hm, by decide, hpivot, hmax, hfirst, by decide, hzeros.2 (Or.inr hzero),
    hnorows.2 (Or.inl (by decide)), by decide, by decide, hcompares, hfail,
    hoverflow.1.2 ⟨2, y, x, hcompares, hfail⟩, hbelow, hne⟩

end ExactLinAlg.Mat
