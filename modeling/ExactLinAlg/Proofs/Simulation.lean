import ExactLinAlg.Elimination.Gauss
import ExactLinAlg.Proofs.Mirrors

/-!
# Eliminations that take the same steps

Every decision of an elimination is read off the matrix under elimination, and only from the columns
that are reduced. A relation between tableaus that keeps these entries and is kept by row operations
(`Tableau.Simulation`) is therefore kept by every step, and by the loops over the columns.
-/

namespace ExactLinAlg

/-- The search for a pivot reads the number of rows and one column from row `top` on. -/
theorem Mat.selectPivot_congr {m n : Mat} {col top : Nat} (hrows : m.rows = n.rows)
    (hentry : ∀ i, top ≤ i → i < m.rows → m.entry i col = n.entry i col) :
    m.selectPivot col top = n.selectPivot col top := by
  unfold selectPivot
  by_cases htop : m.rows ≤ top
  · rw [if_pos htop, if_pos (hrows ▸ htop)]
  · have hlargest : m.largestEntry col top = n.largestEntry col top := by
      unfold largestEntry
      rw [← hrows, hentry top (Nat.le_refl _) (Nat.not_le.1 htop)]
      congr 1
      funext first
      apply foldlM_congr
      intro best i hi
      rw [List.mem_range'_1] at hi
      rw [betterPivot, betterPivot, hentry i (by omega) (by omega)]
    rw [if_neg htop, if_neg (hrows ▸ htop), hlargest]

namespace Tableau

/-- Tableaus related by `R` have the same first `c` columns under elimination, and row operations
keep the relation, failures among `S` excepted. -/
structure Simulation (S : Error → Prop) (c : Nat) (R : Tableau → Tableau → Prop) : Prop where
  rows : ∀ {t u}, R t u → t.main.rows = u.main.rows
  entry : ∀ {t u}, R t u → ∀ i j, j < c → t.main.entry i j = u.main.entry i j
  apply : ∀ {t u}, R t u → ∀ op, Mirrors S R (t.apply op).outcome (u.apply op).outcome

/-- A relation between tableaus, for tableaus with other data beside them. -/
def Alongside {α : Type} (R : Tableau → Tableau → Prop) (x y : Tableau × α) : Prop :=
  R x.1 y.1 ∧ x.2 = y.2

namespace Simulation

variable {S : Error → Prop} {c : Nat} {R : Tableau → Tableau → Prop} (h : Simulation S c R)
  {t u : Tableau} (htu : R t u) {col : Nat} (hcol : col < c) (row : Nat)
include h htu hcol

theorem fetchPivot :
    Mirrors S (Option.Rel (Alongside R)) (t.fetchPivot col row).outcome
      (u.fetchPivot col row).outcome := by
  have hselect : t.main.selectPivot col row = u.main.selectPivot col row :=
    Mat.selectPivot_congr (h.rows htu) fun i _ _ => h.entry htu i col hcol
  apply Traced.mirrors_bind_of_eq (congrArg Traced.outcome hselect)
  intro o
  cases o with
  | none => exact Mirrors.pure Option.Rel.none
  | some i =>
    by_cases hi : i = row
    · simp only [if_pos hi]
      exact Mirrors.pure (Option.Rel.some ⟨htu, rfl⟩)
    · simp only [if_neg hi]
      apply Traced.mirrors_bind (h.apply htu _)
      intro t' u' htu'
      exact Mirrors.pure (Option.Rel.some ⟨htu', rfl⟩)

theorem normalizeRow :
    Mirrors S R (t.normalizeRow col row).outcome (u.normalizeRow col row).outcome := by
  apply Traced.mirrors_bind_of_eq (h.entry htu row col hcol)
  intro pivot
  apply Traced.mirrors_bind_of_eq rfl
  intro factor
  exact h.apply htu _

theorem clearEntry (multiple : Fraction → Except Error Fraction) (i : Nat) :
    Mirrors S R (clearEntry multiple col row t i).outcome
      (clearEntry multiple col row u i).outcome := by
  apply Traced.mirrors_bind_of_eq (h.entry htu i col hcol)
  intro entry
  by_cases hz : entry.isZero = true
  · simp only [if_pos hz]
    exact Mirrors.pure htu
  · simp only [if_neg hz]
    apply Traced.mirrors_bind_of_eq rfl
    intro factor
    exact h.apply htu _

theorem clear (multiple : Fraction → Except Error Fraction) (l : List Nat) :
    Mirrors S R (l.foldlM (Tableau.clearEntry multiple col row) t).outcome
      (l.foldlM (Tableau.clearEntry multiple col row) u).outcome := by
  rw [Traced.outcome_foldlM, Traced.outcome_foldlM]
  apply Mirrors.foldlM htu
  intro i _ s s' hs
  exact h.clearEntry hs hcol row multiple i

theorem clearBelow (multiple : Fraction → Except Error Fraction) :
    Mirrors S R (t.clearBelow multiple col row).outcome
      (u.clearBelow multiple col row).outcome := by
  unfold Tableau.clearBelow
  rw [h.rows htu]
  exact h.clear htu hcol row multiple _

theorem clearAbove (multiple : Fraction → Except Error Fraction) :
    Mirrors S R (t.clearAbove multiple col row).outcome (u.clearAbove multiple col row).outcome :=
  h.clear htu hcol row multiple _

theorem reduceColumn :
    Mirrors S (Option.Rel R) (t.reduceColumn col row).outcome (u.reduceColumn col row).outcome := by
  apply Traced.mirrors_bind (h.fetchPivot htu hcol row)
  intro o o' hrel
  cases hrel with
  | none => exact Mirrors.pure Option.Rel.none
  | some hfetched =>
    apply Traced.mirrors_bind (h.normalizeRow hfetched.1 hcol row)
    intro t' u' hnormal
    apply Traced.mirrors_bind (h.clearBelow hnormal hcol row opposite)
    intro t'' u'' hclear
    exact Mirrors.pure (Option.Rel.some hclear)

theorem advance (pivots : List Nat) :
    Mirrors S (Alongside R) (advance (t, pivots) col).outcome
      (advance (u, pivots) col).outcome := by
  apply Traced.mirrors_bind (h.reduceColumn htu hcol pivots.length)
  intro o o' hrel
  cases hrel with
  | none => exact Mirrors.pure ⟨htu, rfl⟩
  | some hreduced => exact Mirrors.pure ⟨hreduced, rfl⟩

omit hcol in
/-- The forward pass over some columns. -/
theorem advances {l : List Nat} (hl : ∀ k ∈ l, k < c) (pivots : List Nat) :
    Mirrors S (Alongside R) (l.foldlM Tableau.advance (t, pivots)).outcome
      (l.foldlM Tableau.advance (u, pivots)).outcome := by
  rw [Traced.outcome_foldlM, Traced.outcome_foldlM]
  have hstart : Alongside R (t, pivots) (u, pivots) := ⟨htu, rfl⟩
  apply Mirrors.foldlM hstart
  rintro k hk ⟨s, ps⟩ ⟨s', _⟩ ⟨hs, rfl⟩
  exact h.advance hs (hl k hk) ps

omit hcol in
/-- The upward pass. -/
theorem upward {pivots : List Nat} (hpivots : ∀ p ∈ pivots, p < c) :
    Mirrors S R (t.upward pivots).outcome (u.upward pivots).outcome := by
  unfold Tableau.upward
  rw [Traced.outcome_foldlM, Traced.outcome_foldlM]
  apply Mirrors.foldlM htu
  intro pivot hmem s s' hs
  have hpivot := List.fst_mem_of_mem_zipIdx (List.mem_reverse.1 hmem)
  exact h.clearAbove hs (hpivots pivot.1 hpivot) pivot.2 opposite

end Simulation

end Tableau

end ExactLinAlg
