import ExactLinAlg.Proofs.Determinant
import ExactLinAlg.Proofs.Idempotent
import ExactLinAlg.Proofs.InStep
import ExactLinAlg.Proofs.SolveEchelon

/-!
# The decisions of the determinant and of a solution

The determinant keeps the rows of its pivots as they are and clears with quotients; a solution and
the rank divide the row of a pivot by it first. Below the pivot both give the same rows
(`Tableau.Eliminates`), as fractions and not only as rational numbers, for a fraction is determined
by its value. What is read later on are these rows only, so one more column keeps the eliminations
in step (`Tableau.Agrees.inStep_column`) unless one of them overflows, and they meet a column
without a pivot together (`Tableau.inStep_triangulate`).
-/

namespace ExactLinAlg

namespace Traced

/-- The steps that a computation reports, without its conclusions. -/
def steps {α : Type} (x : Traced α) : List Event := x.events.filter fun e => e.level = .trace

theorem steps_eq {α : Type} {x : Traced α} {events last : List Event}
    (h : x.events = events ++ last) (hevents : ∀ e ∈ events, e.level = .trace)
    (hlast : ∀ e ∈ last, e.level = .debug) : x.steps = events := by
  have htrace : events.filter (fun e => e.level = .trace) = events :=
    List.filter_eq_self.2 fun e he => decide_eq_true (hevents e he)
  have hdebug : last.filter (fun e => e.level = .trace) = [] :=
    List.filter_eq_nil_iff.2 fun e he => by rw [hlast e he]; decide
  rw [steps, h, List.filter_append, htrace, hdebug, List.append_nil]

end Traced

/-! ## The choice of a pivot -/

namespace Mat

/-- The search for a pivot reports the entry that it finds, or nothing. -/
theorem reports_selectPivot_found (m : Mat) (col top : ℕ) :
    (m.selectPivot col top).Reports fun e => ∃ row x, e = .selectedPivot col row x := by
  unfold selectPivot
  split
  · exact Traced.reports_pure none
  · refine Traced.Reports.bind (Traced.reports_lift _) fun best e he => ?_
    exact ⟨best.1, best.2, List.mem_singleton.1 he⟩

theorem reports_selectPivot (m : Mat) (col top : ℕ) :
    (m.selectPivot col top).Reports fun e => e.level = .trace := by
  refine (reports_selectPivot_found m col top).mono fun e he => ?_
  obtain ⟨row, x, rfl⟩ := he
  rfl

end Mat

namespace Tableau

/-! ## Events of the steps -/

/-- Only exchanges of rows are reported. -/
theorem silent_apply (t : Tableau) {op : RowOp} (h : op.events = []) : (t.apply op).Silent := by
  have hperform : ∀ m, (op.perform m).Silent := fun m => Traced.silent_of_events h
  refine (hperform t.main).bind fun main => ?_
  refine Traced.Reports.bind ?_ fun companion => Traced.reports_pure _
  cases t.companion with
  | none => exact Traced.reports_pure none
  | some k =>
    rw [Option.mapM_some, map_eq_pure_bind]
    exact (hperform k).bind fun n => Traced.reports_pure _

theorem silent_normalizeRow (t : Tableau) (col row : ℕ) : (t.normalizeRow col row).Silent := by
  refine Traced.Reports.bind (Traced.reports_lift _) fun pivot => ?_
  exact Traced.Reports.bind (Traced.reports_lift _) fun factor => silent_apply t rfl

theorem silent_clearEntry (multiple : Fraction → Except Error Fraction) (col row : ℕ) (t : Tableau)
    (i : ℕ) : (clearEntry multiple col row t i).Silent := by
  refine Traced.Reports.bind (Traced.reports_lift _) fun entry => ?_
  split
  · exact Traced.reports_pure t
  · exact Traced.Reports.bind (Traced.reports_lift _) fun factor => silent_apply t rfl

theorem silent_clearBelow (multiple : Fraction → Except Error Fraction) (t : Tableau)
    (col row : ℕ) : (t.clearBelow multiple col row).Silent :=
  Traced.Reports.foldlM (silent_clearEntry multiple col row) _ t

/-! ## Two ways to clear a column -/

/-- Below row `k`, the rows of `B` are those of `A`, cleared in column `k` by multiples of row
`k`. -/
def Eliminates (A B : ℕ → ℕ → ℚ) (k : ℕ) : Prop :=
  ∀ i, k < i → ∀ j, B i j = A i j - A i k / A k k * A k j

/-- Clears column `k` below the diagonal by quotients. -/
def clearByQuotients (t : Tableau) (k : ℕ) : Traced Tableau := do
  let pivot ← t.main.entry k k
  t.clearBelow (oppositeQuotient pivot) k k

/-- Makes the pivot of column `k` one, and clears the column below it. -/
def clearByUnit (t : Tableau) (k : ℕ) : Traced Tableau := do
  let u ← t.normalizeRow k k
  u.clearBelow opposite k k

section Clear

variable {n k : ℕ} {t : Tableau} (ht : t.WellFormed n) (hcol : k < t.main.cols)
  (hne : t.main.value k k ≠ 0)
include ht hcol hne

theorem ends_clearByQuotients :
    Ends Error.IsOverflow
      (fun u => RowEquiv n t u ∧ Eliminates t.main.value u.main.value k)
      (t.clearByQuotients k).outcome := by
  have hrow : k < t.main.rows := ht.rows ▸ row_lt_of_pivot ht hne
  apply Traced.ends_bind (ht.main.ends_entry hrow hcol)
  intro pivot hpivot
  apply (ends_clearBelow ht hcol hne (hpivot ▸ cancels_oppositeQuotient (hpivot ▸ hne))).imp
  intro u hu
  refine ⟨hu.1.rowEquiv one_ne_zero, ?_⟩
  intro i hi j
  rw [hu.2.target i hi, Pi.sub_apply, Pi.smul_apply, smul_eq_mul]

theorem ends_clearByUnit :
    Ends Error.IsOverflow
      (fun u => RowEquiv n t u ∧ Eliminates t.main.value u.main.value k)
      (t.clearByUnit k).outcome := by
  apply Traced.ends_bind (ends_normalizeRow ht hcol k hne)
  intro u hu
  obtain ⟨hu, hvalue⟩ := hu
  have hone : u.main.value k k = 1 := by
    rw [hvalue, Function.update_self, Pi.smul_apply, smul_eq_mul, inv_mul_cancel₀ hne]
  apply (ends_clearBelow hu.wellFormed (hu.cols ▸ hcol) (hone ▸ one_ne_zero)
    (hone ▸ cancels_opposite)).imp
  intro v hv
  refine ⟨(hu.rowEquiv (inv_ne_zero hne)).trans (hv.1.rowEquiv one_ne_zero), ?_⟩
  intro i hi j
  have hrow : u.main.value i = t.main.value i := by
    rw [hvalue, Function.update_of_ne (ne_of_gt hi)]
  calc v.main.value i j
      = u.main.value i j - u.main.value i k / u.main.value k k * u.main.value k j := by
        rw [hv.2.target i hi, Pi.sub_apply, Pi.smul_apply, smul_eq_mul]
    _ = t.main.value i j - t.main.value i k * ((t.main.value k k)⁻¹ * t.main.value k j) := by
        rw [hone, div_one, hrow, hvalue, Function.update_self, Pi.smul_apply, smul_eq_mul]
    _ = t.main.value i j - t.main.value i k / t.main.value k k * t.main.value k j := by
        rw [div_eq_mul_inv, mul_assoc]

end Clear

/-- A way to clear the column of a pivot below the diagonal, without a report. -/
structure Clearing (clear : Tableau → ℕ → Traced Tableau) : Prop where
  silent : ∀ t k, (clear t k).Silent
  ends : ∀ {n k : ℕ} {t : Tableau}, t.WellFormed n → k < t.main.cols → t.main.value k k ≠ 0 →
    Ends Error.IsOverflow (fun u => RowEquiv n t u ∧ Eliminates t.main.value u.main.value k)
      (clear t k).outcome

theorem clearing_clearByQuotients : Clearing clearByQuotients where
  silent t k := Traced.Reports.bind (Traced.reports_lift _) fun _ => silent_clearBelow _ t k k
  ends := ends_clearByQuotients

theorem clearing_clearByUnit : Clearing clearByUnit where
  silent t k := (silent_normalizeRow t k k).bind fun u => silent_clearBelow opposite u k k
  ends := ends_clearByUnit

/-! ## One column of an elimination -/

/-- Goes on as `missing` if column `k` has no pivot, and if it has one as `next`, from the tableau
in which the column is cleared. -/
def column {α : Type} (clear : Tableau → ℕ → Traced Tableau) (t : Tableau) (k : ℕ)
    (missing : Traced α) (next : Bool → Tableau → Traced α) : Traced α := do
  match ← t.fetchPivot k k with
  | none => missing
  | some (u, swapped) => clear u k >>= next swapped

theorem column_bind {α β : Type} {clear : Tableau → ℕ → Traced Tableau} {t : Tableau} {k : ℕ}
    {missing : Traced α} {next : Bool → Tableau → Traced α} (f : α → Traced β) :
    t.column clear k missing next >>= f =
      t.column clear k (missing >>= f) fun swapped u => next swapped u >>= f := by
  unfold column
  rw [bind_assoc]
  congr 1
  funext o
  rcases o with _ | ⟨u, swapped⟩
  · rfl
  · exact bind_assoc (clear u k) (next swapped) f

theorem triangulate_cons (t : Tableau) (odd : Bool) (k : ℕ) (rest : List ℕ) :
    t.triangulate odd (k :: rest) =
      t.column clearByQuotients k (Traced.report (.zeroDeterminant k) >>= fun _ => pure none)
        fun swapped u => u.triangulate (odd != swapped) rest := by
  rw [triangulate, column]
  congr 1
  funext o
  rcases o with _ | ⟨u, swapped⟩
  · rfl
  · exact (bind_assoc ..).symm

theorem reduceColumn_eq (t : Tableau) (k : ℕ) :
    t.reduceColumn k k = t.column clearByUnit k (pure none) fun _ u => pure (some u) := by
  rw [reduceColumn, column]
  congr 1
  funext o
  rcases o with _ | ⟨u, swapped⟩
  · rfl
  · exact (bind_assoc ..).symm

theorem reduceUnknowns_cons (t : Tableau) (k : ℕ) (rest : List ℕ) :
    (k :: rest).foldlM reduceUnknown t =
      t.column clearByUnit k (Traced.report (.singularSystem k) >>= fun _ => Traced.fail .singular)
        fun _ u => rest.foldlM reduceUnknown u := by
  rw [List.foldlM_cons, reduceUnknown, reduceColumn_eq, column_bind, column_bind]
  rfl

theorem advances_cons (t : Tableau) (pivots rest : List ℕ) :
    (pivots.length :: rest).foldlM advance (t, pivots) =
      t.column clearByUnit pivots.length (rest.foldlM advance (t, pivots))
        fun _ u => rest.foldlM advance (u, pivots ++ [pivots.length]) := by
  rw [List.foldlM_cons, advance, reduceColumn_eq, column_bind, column_bind]
  rfl

/-! ## The same rows from one row on -/

/-- A matrix of `n` rows and at least as many columns is alone under elimination. -/
structure Alone (n : ℕ) (t : Tableau) : Prop where
  wellFormed : t.WellFormed n
  width : n ≤ t.main.cols
  companion : t.companion = none

theorem Alone.of_follows {n : ℕ} {d : ℚ} {t u : Tableau} (ht : t.Alone n) (h : Follows n d t u) :
    u.Alone n :=
  ⟨h.wellFormed, h.cols ▸ ht.width, h.companion_eq_none ht.companion⟩

theorem Alone.events_apply {n : ℕ} {t : Tableau} (ht : t.Alone n) (op : RowOp) :
    (t.apply op).events = op.events := by
  apply Traced.events_bind_of_silent
  intro main
  rw [ht.companion]
  exact Traced.reports_pure _

/-- Both matrices have the same rows from row `k` on, in the first `n` columns. -/
structure Agrees (n k : ℕ) (t u : Tableau) : Prop where
  left : t.Alone n
  right : u.Alone n
  value : ∀ i, k ≤ i → ∀ j, j < n → t.main.value i j = u.main.value i j

namespace Agrees

variable {n k : ℕ} {t u : Tableau} (h : Agrees n k t u)
include h

theorem symm : Agrees n k u t :=
  ⟨h.right, h.left, fun i hi j hj => (h.value i hi j hj).symm⟩

variable (hk : k < n)
include hk

theorem pivot_ne (hne : t.main.value k k ≠ 0) : u.main.value k k ≠ 0 := by
  rwa [← h.value k le_rfl k hk]

theorem selectPivot_eq : t.main.selectPivot k k = u.main.selectPivot k k := by
  have ht := h.left.wellFormed
  have hu := h.right.wellFormed
  apply Mat.selectPivot_congr (ht.rows.trans hu.rows.symm)
  intro i hi hirows
  have hir : i < u.main.rows := by rwa [hu.rows, ← ht.rows]
  obtain ⟨x, hx, hvalue⟩ :=
    (hu.main.ends_entry (E := Error.Never) hir (hk.trans_le h.right.width)).exists_ok
  rw [hx]
  apply Mat.entry_eq_ok ht.main (hk.trans_le h.left.width) hirows
  rw [h.value i hi k hk, hvalue]

omit hk in
theorem swap {p : ℕ} (hp : k ≤ p) {d : ℚ} {t' u' : Tableau}
    (ht : Follows n d t t' ∧ t'.main.value = (RowOp.swap k p).act t.main.value)
    (hu : Follows n d u u' ∧ u'.main.value = (RowOp.swap k p).act u.main.value) :
    Agrees n k t' u' := by
  refine ⟨h.left.of_follows ht.1, h.right.of_follows hu.1, ?_⟩
  intro i hi j hj
  rw [ht.2, hu.2, RowOp.act_swap, RowOp.act_swap]
  apply h.value _ _ j hj
  rw [Equiv.swap_apply_def]
  split_ifs <;> omega

/-- The pivots are fetched from the same row. -/
theorem inStep_fetchPivot :
    Traced.InStep
      (Traced.Both (Option.Rel fun p q => Agrees n k p.1 q.1 ∧ p.1.main.value k k ≠ 0))
      (t.fetchPivot k k) (u.fetchPivot k k) := by
  have ht := h.left.wellFormed
  have hu := h.right.wellFormed
  apply Traced.InStep.bind_of_eq (h.selectPivot_eq hk) (Mat.reports_selectPivot t.main k k)
    (Mat.ends_selectPivot ht.main (hk.trans_le h.left.width) k)
  intro o ho
  cases o with
  | none => exact Traced.InStep.pure Option.Rel.none
  | some p =>
    obtain ⟨hkp, hprows, hne, -, -⟩ := ho
    by_cases hp : p = k
    · simp only [if_pos hp]
      exact Traced.InStep.pure (Option.Rel.some ⟨h, hp ▸ hne⟩)
    · simp only [if_neg hp]
      have hrange : (RowOp.swap k p).InRange n := ⟨hk, ht.rows ▸ hprows⟩
      have hevents := h.left.events_apply (.swap k p)
      have hswap : Traced.InStep
          (Traced.Both fun t' u' => Agrees n k t' u' ∧ t'.main.value k k ≠ 0)
          (t.apply (.swap k p)) (u.apply (.swap k p)) := by
        apply Traced.InStep.of_ends (hevents.trans (h.right.events_apply _).symm) _
          (ends_apply hrange ht) (ends_apply hrange hu)
        · intro t' u' ht' hu'
          refine ⟨h.swap hkp ht' hu', ?_⟩
          rwa [ht'.2, RowOp.act_swap, Equiv.swap_apply_left]
        · intro e he
          rw [hevents] at he
          rw [List.mem_singleton.1 he]
          rfl
      apply hswap.bind
      intro t' u' h'
      exact Traced.InStep.pure (Option.Rel.some h')

/-- The rows that are left below the pivot are the same. -/
theorem next {t' u' : Tableau}
    (ht : RowEquiv n t t' ∧ Eliminates t.main.value t'.main.value k)
    (hu : RowEquiv n u u' ∧ Eliminates u.main.value u'.main.value k) : Agrees n (k + 1) t' u' := by
  obtain ⟨⟨_, -, ht'⟩, htvalue⟩ := ht
  obtain ⟨⟨_, -, hu'⟩, huvalue⟩ := hu
  refine ⟨h.left.of_follows ht', h.right.of_follows hu', ?_⟩
  intro i hi j hj
  rw [htvalue i hi j, huvalue i hi j, h.value i (Nat.le_of_succ_le hi) j hj,
    h.value i (Nat.le_of_succ_le hi) k hk, h.value k le_rfl k hk, h.value k le_rfl j hj]

/-- Where both go on in step without a pivot and after a column is cleared, it does not matter how
each of them clears its column. -/
theorem inStep_column {α β : Type} {Z : Traced α → Traced β → Prop}
    {clear clear' : Tableau → ℕ → Traced Tableau} (hclear : Clearing clear)
    (hclear' : Clearing clear') {missing : Traced α} {missing' : Traced β}
    (hmissing : Traced.InStep Z missing missing') {next : Bool → Tableau → Traced α}
    {next' : Bool → Tableau → Traced β}
    (hnext : ∀ swapped swapped' t' u', Agrees n (k + 1) t' u' →
      Traced.InStep Z (next swapped t') (next' swapped' u')) :
    Traced.InStep Z (t.column clear k missing next) (u.column clear' k missing' next') := by
  apply (h.inStep_fetchPivot hk).bind
  intro o o' hrel
  cases hrel with
  | none => exact hmissing
  | @some p q hpq =>
    obtain ⟨t', swapped⟩ := p
    obtain ⟨u', swapped'⟩ := q
    obtain ⟨h', hne⟩ := hpq
    have hcleared : Traced.InStep (Traced.Both (Agrees n (k + 1))) (clear t' k) (clear' u' k) := by
      have hsilent := hclear.silent t' k
      apply Traced.InStep.of_ends
        (hsilent.events_eq_nil.trans (hclear'.silent u' k).events_eq_nil.symm)
        (hsilent.mono fun _ => False.elim)
        (hclear.ends h'.left.wellFormed (hk.trans_le h'.left.width) hne)
        (hclear'.ends h'.right.wellFormed (hk.trans_le h'.right.width) (h'.pivot_ne hk hne))
      intro t'' u'' ht hu
      exact h'.next hk ht hu
    exact hcleared.bind (hnext swapped swapped')

end Agrees

/-! ## The loops over the columns -/

/-- How the elimination of a determinant and that of a system of `n` unknowns end together: both
reach the last column, or both meet the same column without a pivot. -/
inductive Concludes {α β : Type} (n : ℕ) : Traced (Option α) → Traced β → Prop
  | regular (a : α) (b : β) : Concludes n (pure (some a)) (pure b)
  | singular {col : ℕ} (h : col < n) :
    Concludes n (Traced.report (.zeroDeterminant col) >>= fun _ => pure none)
      (Traced.report (.singularSystem col) >>= fun _ => Traced.fail .singular)

/-- The determinant and the elimination of unknowns take the same steps to the same conclusion. -/
theorem inStep_triangulate {n : ℕ} (c : ℕ) :
    ∀ {k : ℕ} {t u : Tableau} (odd : Bool), k + c = n → Agrees n k t u →
      Traced.InStep (Concludes n) (t.triangulate odd (List.range' k c))
        ((List.range' k c).foldlM reduceUnknown u) := by
  -- on the number of columns left: before column `k` the rows from `k` on agree
  induction c with
  | zero =>
    intro k t u odd _ _
    exact Traced.InStep.of_last (Concludes.regular (t, odd) u)
  | succ c ih =>
    intro k t u odd hkc h
    have hk : k < n := by omega
    rw [List.range'_succ, triangulate_cons, reduceUnknowns_cons]
    apply h.inStep_column hk clearing_clearByQuotients clearing_clearByUnit
    · exact Traced.InStep.of_last (Concludes.singular hk)
    · intro swapped _ t' u' h'
      exact ih (odd != swapped) (by omega) h'

/-- As long as the elimination of unknowns goes on, the forward pass takes the same steps. -/
theorem inStep_advances {n : ℕ} (c : ℕ) :
    ∀ {t u : Tableau} (pivots : List ℕ), pivots.length + c = n → Agrees n pivots.length t u →
      Traced.InStep
        (fun x y => x.outcome = .error .singular ∨ Traced.Both (fun _ _ => True) x y)
        ((List.range' pivots.length c).foldlM reduceUnknown t)
        ((List.range' pivots.length c).foldlM advance (u, pivots)) := by
  induction c with
  | zero =>
    intro t u pivots _ _
    exact Traced.InStep.of_last (Or.inr (Traced.Both.intro trivial))
  | succ c ih =>
    intro t u pivots hkc h
    have hk : pivots.length < n := by omega
    rw [List.range'_succ, reduceUnknowns_cons, advances_cons]
    apply h.inStep_column hk clearing_clearByUnit clearing_clearByUnit
    · exact Traced.InStep.of_last (Or.inl rfl)
    · intro _ _ t' u' h'
      have hlen : (pivots ++ [pivots.length]).length = pivots.length + 1 := List.length_append
      rw [← hlen] at h' ⊢
      exact ih (pivots ++ [pivots.length]) (by omega) h'

end Tableau

/-! ## The computations -/

namespace Mat

theorem determinant_eq {m : Mat} (h : m.rows = m.cols) :
    m.determinant = Tableau.triangulate ⟨m, none⟩ false (List.range m.rows) >>= fun
      | none => return 0
      | some (t, odd) => liftM (t.main.diagonalProduct m.rows (if odd then -1 else 1)) := by
  have hsquare : m.checkSquare = .ok () := checkSquare_eq_ok_iff.2 h
  rw [determinant, hsquare]
  rfl

theorem solve_eq {m : Mat} (h : m.rows = m.cols) {b : Vec} (hb : m.rows = b.length) :
    m.solve b = (List.range m.rows).foldlM Tableau.reduceUnknown ⟨m.beside (ofColumn b), none⟩ >>=
      fun t => liftM (t.main.backSubstitute m.rows) := by
  have hsquare : m.checkSquare = .ok () := checkSquare_eq_ok_iff.2 h
  have hdims : checkDims m.rows b.length = .ok () := checkDims_eq_ok_iff.2 hb
  have hstack : m.hstack (ofColumn b) = .ok (m.beside (ofColumn b)) := hstack_eq_ok_iff.2 ⟨hb, rfl⟩
  rw [solve, hsquare, hdims, hstack]
  rfl

/-- The rank reports what the forward pass reports. -/
theorem events_rank (m : Mat) : m.rank.events = (Tableau.forward ⟨m, none⟩).events := by
  rw [rank, gauss, Tableau.eliminate, Traced.events_bind_of_silent, Traced.events_bind_of_silent,
    Traced.events_bind_of_silent]
  all_goals intro a
  all_goals exact Traced.reports_pure _

section Decisions

variable {m : Mat} {n : ℕ} (hm : m.WellFormed) (hrows : m.rows = n) (hcols : m.cols = n) {b : Vec}
  (hb : b.length = n)
include hm hrows hcols hb

theorem agrees_beside :
    Tableau.Agrees n 0 ⟨m, none⟩ ⟨m.beside (ofColumn b), none⟩ := by
  have hbrows : m.rows = (ofColumn b).rows := hrows.trans hb.symm
  have hwf := wellFormed_beside hm (wellFormed_ofColumn b) hbrows
  refine ⟨⟨hrows ▸ tableau_wellFormed hm, hcols.ge, rfl⟩,
    ⟨hrows ▸ tableau_wellFormed hwf, ?_, rfl⟩, ?_⟩
  · exact hcols.ge.trans (Nat.le_add_right _ _)
  · intro i _ j hj
    exact (if_pos (hcols ▸ hj)).symm.trans
      (value_beside hm (wellFormed_ofColumn b) hbrows i j).symm

/-- Back-substitution does not find a system singular. -/
theorem backSubstitute_ne_singular {u : Tableau}
    (hu : ((List.range n).foldlM Tableau.reduceUnknown ⟨m.beside (ofColumn b), none⟩).outcome =
      .ok u) : u.main.backSubstitute n ≠ .error .singular := by
  have ht := (agrees_beside hm hrows hcols hb).right.wellFormed
  have htcols : (m.beside (ofColumn b)).cols = n + 1 := congrArg (· + 1) hcols
  obtain ⟨hequiv, hstairs⟩ := (Tableau.ends_reduceUnknowns ht htcols).of_ok hu
  have hwf := hequiv.wellFormed
  have hback := ends_backSubstitute hwf.main hwf.rows (hequiv.cols.trans htcols) hstairs
  intro h
  exact nomatch hback.of_error h

/-- Both computations report the same steps, and conclude from the same column that the matrix is
singular. -/
theorem determinant_inStep_solve (hd : m.determinant.outcome ≠ .error .overflow)
    (hs : (m.solve b).outcome ≠ .error .overflow) :
    ∃ events : List Event, (∀ e ∈ events, e.level = .trace) ∧
      ((m.solve b).outcome ≠ .error .singular ∧ m.determinant.events = events ∧
          (m.solve b).events = events ∨
        (m.solve b).outcome = .error .singular ∧ ∃ col, col < n ∧
          m.determinant.events = events ++ [.zeroDeterminant col] ∧
          (m.solve b).events = events ++ [.singularSystem col]) := by
  have hsquare := hrows.trans hcols.symm
  have hrun := Tableau.inStep_triangulate n false (Nat.zero_add n) (agrees_beside hm hrows hcols hb)
  rw [← List.range_eq_range'] at hrun
  rw [determinant_eq hsquare, hrows] at hd ⊢
  rw [solve_eq hsquare (hrows.trans hb.symm), hrows] at hs ⊢
  rcases hrun with hx | hy | ⟨events, x, y, hlevel, hx, hy, hlast⟩
  · refine absurd ?_ hd
    rw [Traced.outcome_bind, hx]
    rfl
  · refine absurd ?_ hs
    rw [Traced.outcome_bind, hy]
    rfl
  · refine ⟨events, hlevel, ?_⟩
    cases hlast with
    | regular a u =>
      have hback := backSubstitute_ne_singular hm hrows hcols hb (congrArg Traced.outcome hy)
      rw [hx, hy, Traced.after_pure_bind, Traced.after_pure_bind]
      exact Or.inl ⟨hback, List.append_nil events, List.append_nil events⟩
    | @singular col hcol =>
      rw [hx, hy]
      exact Or.inr ⟨rfl, col, hcol, List.append_nil (events ++ [Event.zeroDeterminant col]), rfl⟩

/-- A solved system is reduced by the steps that the rank takes. -/
theorem events_rank_of_solve {x : Vec} (hx : (m.solve b).outcome = .ok x) :
    m.rank.events = (m.solve b).events := by
  have hrun := Tableau.inStep_advances n [] (Nat.zero_add n)
    (agrees_beside hm hrows hcols hb).symm
  obtain ⟨u, hu⟩ := reduceUnknowns_of_solve hx
  obtain ⟨t, ht⟩ := forward_coefficients_of_solve hm hrows hcols hb hx
  rw [events_rank, solve_eq (hrows.trans hcols.symm) (hrows.trans hb.symm),
    Traced.events_bind_of_silent fun u => Traced.reports_lift _]
  rw [Tableau.forward, hcols] at ht ⊢
  rw [hrows] at hu ⊢
  rw [List.length_nil, ← List.range_eq_range'] at hrun
  rcases hrun with h | h | ⟨events, _, _, -, hleft, hright, h | @⟨v, s, -⟩⟩
  · cases hu.symm.trans h
  · cases ht.symm.trans h
  · cases hu.symm.trans ((congrArg Traced.outcome hleft).trans h)
  · rw [hleft, hright]
    rfl

theorem rank_of_solve {x : Vec} (hx : (m.solve b).outcome = .ok x) : m.rank.outcome = .ok n := by
  obtain ⟨t, ht⟩ := forward_coefficients_of_solve hm hrows hcols hb hx
  rw [rank, Traced.outcome_bind, gauss_of_forward ht]
  exact congrArg Except.ok List.length_range

theorem determinant_eq_zero_iff (hd : m.determinant.outcome ≠ .error .overflow)
    (hs : (m.solve b).outcome ≠ .error .overflow) :
    m.determinant.outcome = .ok 0 ↔ (m.solve b).outcome = .error .singular := by
  have hdet := ends_determinant hm hrows hcols
  have hsolve := ends_solve hm hrows hcols hb
  constructor
  · intro h
    have hzero : (m.toMatrix n n).det = 0 := (hdet.of_ok h).symm.trans Fraction.toRat_zero
    cases hx : (m.solve b).outcome with
    | ok x =>
      obtain ⟨-, hunit, -⟩ := hsolve.of_ok hx
      rw [Matrix.isUnit_iff_isUnit_det, hzero] at hunit
      exact absurd hunit not_isUnit_zero
    | error e =>
      rcases hsolve.of_error hx with rfl | ⟨rfl, -⟩
      · exact absurd hx hs
      · rfl
  · intro h
    rcases hsolve.of_error h with he | ⟨-, hzero⟩
    · exact nomatch he
    · cases hx : m.determinant.outcome with
      | ok d =>
        have hvalue : d.toRat = (0 : Fraction).toRat :=
          (hdet.of_ok hx).trans (hzero.trans Fraction.toRat_zero.symm)
        rw [Fraction.toRat_injective hvalue]
      | error e => exact absurd (hx.trans (congrArg Except.error (hdet.of_error hx))) hd

/-- **The decisions of elimination.** Unless one of them overflows, the determinant of a square
matrix and the solution of a system with its coefficients report the same searches for pivots, with
the same rows and values, and the same exchanges of rows. The determinant is found zero exactly when
the system is found singular, and both then report one more event, for the same column. Otherwise
the rank does not overflow either, and reports the same steps. -/
theorem determinant_solve_steps (hd : m.determinant.outcome ≠ .error .overflow)
    (hs : (m.solve b).outcome ≠ .error .overflow) :
    m.determinant.steps = (m.solve b).steps ∧
    (m.determinant.outcome = .ok 0 ↔ (m.solve b).outcome = .error .singular) ∧
    ((m.solve b).outcome = .error .singular → ∃ col, col < n ∧
      m.determinant.events = m.determinant.steps ++ [.zeroDeterminant col] ∧
      (m.solve b).events = (m.solve b).steps ++ [.singularSystem col]) ∧
    ((m.toMatrix n n).det ≠ 0 → m.rank.outcome = .ok n ∧
      m.rank.steps = m.determinant.steps ∧ m.rank.events = m.rank.steps ∧
      m.determinant.events = m.determinant.steps ∧ (m.solve b).events = (m.solve b).steps) := by
  obtain ⟨events, hlevel, hcases⟩ := determinant_inStep_solve hm hrows hcols hb hd hs
  have hiff := determinant_eq_zero_iff hm hrows hcols hb hd hs
  rcases hcases with ⟨hne, hdevents, hsevents⟩ | ⟨hsingular, col, hcol, hdevents, hsevents⟩
  · have hsteps {α : Type} {x : Traced α} (hx : x.events = events) : x.steps = events :=
      Traced.steps_eq (hx.trans (List.append_nil events).symm) hlevel (List.forall_mem_nil _)
    refine ⟨(hsteps hdevents).trans (hsteps hsevents).symm, hiff, fun h => absurd h hne, ?_⟩
    intro _
    obtain ⟨x, hx⟩ : ∃ x, (m.solve b).outcome = .ok x := by
      cases hx : (m.solve b).outcome with
      | ok x => exact ⟨x, rfl⟩
      | error e =>
        rcases (ends_solve hm hrows hcols hb).of_error hx with rfl | ⟨rfl, -⟩
        · exact absurd hx hs
        · exact absurd hx hne
    have hrevents := (events_rank_of_solve hm hrows hcols hb hx).trans hsevents
    refine ⟨rank_of_solve hm hrows hcols hb hx, ?_, ?_, ?_, ?_⟩
    · rw [hsteps hrevents, hsteps hdevents]
    · rw [hsteps hrevents, hrevents]
    · rw [hsteps hdevents, hdevents]
    · rw [hsteps hsevents, hsevents]
  · have hdsteps : m.determinant.steps = events :=
      Traced.steps_eq hdevents hlevel (List.forall_mem_singleton.2 rfl)
    have hssteps : (m.solve b).steps = events :=
      Traced.steps_eq hsevents hlevel (List.forall_mem_singleton.2 rfl)
    refine ⟨hdsteps.trans hssteps.symm, hiff, fun _ => ⟨col, hcol, ?_, ?_⟩, ?_⟩
    · rw [hdsteps, hdevents]
    · rw [hssteps, hsevents]
    · intro hne
      rcases (ends_solve hm hrows hcols hb).of_error hsingular with he | ⟨-, hzero⟩
      · exact nomatch he
      · exact absurd hzero hne

omit hm hrows hcols hb in
/-- A regular matrix, and a singular one that agrees with it in the first two rows. -/
theorem determinant_solve_steps_offDiagonal :
    let m : Mat := ⟨3, 3, [[0, 1, 1], [1, 0, 1], [1, 1, 0]]⟩
    let s : Mat := ⟨3, 3, [[0, 1, 1], [1, 0, 1], [1, -1, 0]]⟩
    let b : Vec := [1, 1, 0]
    let first : List Event := [.selectedPivot 0 1 1, .swapRows 0 1, .selectedPivot 1 1 1]
    m.WellFormed ∧ m.determinant.outcome = .ok (Fraction.ofInt32 2) ∧
      (m.solve b).outcome = .ok [0, 0, 1] ∧ (m.toMatrix 3 3).det ≠ 0 ∧
      m.determinant.steps = (m.solve b).steps ∧ m.rank.steps = m.determinant.steps ∧
      m.rank.steps = first ++ [.selectedPivot 2 2 (Fraction.ofInt32 2)] ∧
      s.WellFormed ∧ s.determinant.outcome = .ok 0 ∧ (s.solve b).outcome = .error .singular ∧
      s.determinant.steps = (s.solve b).steps ∧
      s.determinant.steps = first ++ [.selectedPivot 2 2 0] ∧
      ∃ col, col < 3 ∧ s.determinant.events = s.determinant.steps ++ [.zeroDeterminant col] ∧
        (s.solve b).events = (s.solve b).steps ++ [.singularSystem col] := by
  intro m s b first
  have hm : m.WellFormed := ⟨rfl, by decide⟩
  have hs : s.WellFormed := ⟨rfl, by decide⟩
  have hmd : m.determinant.outcome = .ok (Fraction.ofInt32 2) := by
    show (determinant ⟨3, 3, [[0, 1, 1], [1, 0, 1], [1, 1, 0]]⟩).outcome = _
    decide +kernel
  have hmx : (m.solve b).outcome = .ok [0, 0, 1] := by
    show (solve ⟨3, 3, [[0, 1, 1], [1, 0, 1], [1, 1, 0]]⟩ [1, 1, 0]).outcome = _
    decide +kernel
  have hsd : s.determinant.outcome = .ok 0 := by
    show (determinant ⟨3, 3, [[0, 1, 1], [1, 0, 1], [1, -1, 0]]⟩).outcome = _
    decide +kernel
  have hsteps : m.rank.steps = first ++ [.selectedPivot 2 2 (Fraction.ofInt32 2)] := by
    show (rank ⟨3, 3, [[0, 1, 1], [1, 0, 1], [1, 1, 0]]⟩).steps = _
    decide +kernel
  have hsteps' : s.determinant.steps = first ++ [.selectedPivot 2 2 0] := by
    show (determinant ⟨3, 3, [[0, 1, 1], [1, 0, 1], [1, -1, 0]]⟩).steps = _
    decide +kernel
  have hsx : (s.solve b).outcome ≠ .error .overflow := by
    show (solve ⟨3, 3, [[0, 1, 1], [1, 0, 1], [1, -1, 0]]⟩ [1, 1, 0]).outcome ≠ _
    decide +kernel
  have hdet : (m.toMatrix 3 3).det ≠ 0 := by
    rw [← (ends_determinant hm rfl rfl).of_ok hmd]
    exact fun h => absurd (Fraction.toRat_eq_zero_iff.1 h) (by decide)
  obtain ⟨hmsteps, -, -, hrank⟩ := determinant_solve_steps hm rfl rfl (b := b) rfl
    (hmd ▸ nofun) (hmx ▸ nofun)
  obtain ⟨hssteps, hsingular, hlast, -⟩ := determinant_solve_steps hs rfl rfl (b := b) rfl
    (hsd ▸ nofun) hsx
  exact ⟨hm, hmd, hmx, hdet, hmsteps, (hrank hdet).2.1, hsteps, hs, hsd, hsingular.1 hsd, hssteps,
    hsteps', hlast (hsingular.1 hsd)⟩

end Decisions

end Mat

end ExactLinAlg
