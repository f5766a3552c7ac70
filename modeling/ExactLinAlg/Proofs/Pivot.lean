import ExactLinAlg.Elimination.Pivot
import ExactLinAlg.Proofs.Entries

/-!
# The pivot of a column

The search keeps the topmost entry of largest absolute value of the rows seen so far
(`Mat.IsLargest`), so it finds no pivot exactly if all entries that it may choose from are zero
(`Mat.ends_selectPivot`).
-/

namespace ExactLinAlg

theorem Fraction.toRat_abs_eq (a : Fraction) : a.abs.toRat = |a.toRat| := by
  rw [toRat_abs]
  rcases le_total 0 a.toRat with h | h
  · rw [abs_of_nonneg h, Rat.abs_of_nonneg h]
  · rw [abs_of_nonpos h, Rat.abs_of_nonpos h]

namespace Mat

/-- Row `best.1` has the topmost of the entries of largest absolute value in column `col` among
the rows from `top` up to but not including `bound`, and `best.2` is that absolute value. -/
structure IsLargest (m : Mat) (col top bound : ℕ) (best : ℕ × Fraction) : Prop where
  top_le : top ≤ best.1
  lt_bound : best.1 < bound
  value_eq : best.2.toRat = |m.value best.1 col|
  le_best : ∀ i, top ≤ i → i < bound → |m.value i col| ≤ best.2.toRat
  lt_best : ∀ i, top ≤ i → i < best.1 → |m.value i col| < best.2.toRat

/-- What the search for a pivot in column `col` from row `top` on may answer. -/
def IsPivot (m : Mat) (col top : ℕ) : Option ℕ → Prop
  | none => ∀ i, top ≤ i → m.value i col = 0
  | some p => top ≤ p ∧ p < m.rows ∧ m.value p col ≠ 0 ∧
      (∀ i, top ≤ i → |m.value i col| ≤ |m.value p col|) ∧
      ∀ i, top ≤ i → i < p → |m.value i col| < |m.value p col|

variable {m : Mat} {col top : ℕ}

/-- The row that the search starts from. -/
theorem isLargest_start {x : Fraction} (hx : x.toRat = |m.value top col|) :
    m.IsLargest col top (top + 1) (top, x) := by
  refine ⟨le_rfl, Nat.lt_succ_self _, hx, fun i hi hi' => ?_, fun i hi hi' => ?_⟩
  · rw [Nat.le_antisymm (Nat.lt_succ_iff.1 hi') hi]
    exact hx.ge
  · exact absurd hi' (Nat.not_lt.2 hi)

variable (hm : m.WellFormed) (hcol : col < m.cols)
include hm hcol

theorem ends_entry_abs {i : ℕ} (hi : i < m.rows) {E : Error → Prop} :
    Ends E (fun x => x.abs.toRat = |m.value i col|) (m.entry i col) :=
  (hm.ends_entry hi hcol).imp fun x hx => by rw [Fraction.toRat_abs_eq, hx]

/-- One more row. -/
theorem ends_betterPivot {bound : ℕ} {best : ℕ × Fraction} (h : m.IsLargest col top bound best)
    (hbound : bound < m.rows) :
    Ends Error.IsOverflow (m.IsLargest col top (bound + 1)) (m.betterPivot col best bound) := by
  refine (ends_entry_abs hm hcol hbound).bind fun x hx => ?_
  refine (Fraction.ends_compare _ _).bind fun o ⟨_, _, hgt⟩ => ?_
  rw [hx] at hgt
  by_cases ho : o = .gt
  · subst ho
    have hlt := hgt.1 rfl
    refine ⟨h.top_le.trans h.lt_bound.le, Nat.lt_succ_self _, hx, fun i hi hib => ?_,
      fun i hi hib => ?_⟩
    · rcases Nat.lt_succ_iff_lt_or_eq.1 hib with hib | rfl
      · exact (h.le_best i hi hib).trans (hx ▸ hlt.le)
      · exact hx.ge
    · exact (h.le_best i hi hib).trans_lt (hx ▸ hlt)
  · have hle : |m.value bound col| ≤ best.2.toRat := not_lt.1 fun hlt => ho (hgt.2 hlt)
    have hkeep : m.IsLargest col top (bound + 1) best := by
      refine ⟨h.top_le, h.lt_bound.trans (Nat.lt_succ_self _), h.value_eq, fun i hi hib => ?_,
        h.lt_best⟩
      rcases Nat.lt_succ_iff_lt_or_eq.1 hib with hib | rfl
      · exact h.le_best i hi hib
      · exact hle
    cases o with
    | gt => exact absurd rfl ho
    | lt => exact hkeep
    | eq => exact hkeep

theorem ends_largestEntry (htop : top < m.rows) :
    Ends Error.IsOverflow (m.IsLargest col top m.rows) (m.largestEntry col top) := by
  refine (ends_entry_abs hm hcol htop).bind fun x hx => ?_
  apply Ends.foldlM_range' htop (isLargest_start hx)
  intro i _ hi best hbest
  exact ends_betterPivot hm hcol hbest hi

/-- The search finds the topmost entry of largest absolute value, or overflows. -/
theorem ends_selectPivot (top : ℕ) :
    Ends Error.IsOverflow (m.IsPivot col top) (m.selectPivot col top).outcome := by
  unfold selectPivot
  by_cases htop : m.rows ≤ top
  · rw [if_pos htop]
    exact fun i hi => hm.value_of_rows_le (htop.trans hi) col
  · rw [if_neg htop]
    refine Traced.ends_bind (ends_largestEntry hm hcol (Nat.not_le.1 htop)) fun best h => ?_
    have hle : ∀ i, top ≤ i → |m.value i col| ≤ best.2.toRat := by
      intro i hi
      by_cases hir : i < m.rows
      · exact h.le_best i hi hir
      · rw [hm.value_of_rows_le (Nat.le_of_not_lt hir), abs_zero, h.value_eq]
        exact abs_nonneg _
    show m.IsPivot col top (if best.2.isZero then none else some best.1)
    by_cases hz : best.2.isZero = true
    · rw [if_pos hz]
      intro i hi
      have h0 := hle i hi
      rw [Fraction.toRat_eq_zero_iff.2 hz] at h0
      exact abs_nonpos_iff.1 h0
    · rw [if_neg hz]
      have hne : m.value best.1 col ≠ 0 := by
        intro h0
        have hval := h.value_eq
        rw [h0, abs_zero] at hval
        exact hz (Fraction.toRat_eq_zero_iff.1 hval)
      rw [h.value_eq] at hle
      exact ⟨h.top_le, h.lt_bound, hne, hle, h.value_eq ▸ h.lt_best⟩

end Mat

end ExactLinAlg
