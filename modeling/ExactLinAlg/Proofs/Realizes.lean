import ExactLinAlg.Proofs.Atomic
import ExactLinAlg.Proofs.Augmented

/-!
# Commands in place give the same results

That a command does in place what it does on a value is proved step by step. `InPlace.Realizes`
compares a computation in place with one that gives a new matrix, as `Mirrors` compares two of the
latter: where one fails so does the other, but then nothing is said of the matrix that is left. The
elimination in place has no tableau, for it has no companion; its matrix is that of the tableau.
-/

namespace ExactLinAlg

namespace InPlace

variable {α β γ δ σ τ : Type}

/-- In place, the computation ends on `m` as `x` does: with a result and a matrix that `R` relates
to the result of `x`, or with the same failure. -/
def Realizes (p : InPlace α) (m : Mat) (x : Except Error β) (R : β → α → Mat → Prop) : Prop :=
  match x with
  | .ok b => ∃ a n, p.run m = .ok a n ∧ R b a n
  | .error e => ∃ n, p.run m = .error e n

namespace Realizes

variable {p : InPlace α} {m : Mat} {x : Except Error β} {R : β → α → Mat → Prop}

theorem pure {a : α} {b : β} (h : R b a m) : Realizes (Pure.pure a) m (Pure.pure b) R :=
  ⟨a, m, rfl, h⟩

theorem bind {q : α → InPlace γ} {f : β → Except Error δ} {S : δ → γ → Mat → Prop}
    (h : Realizes p m x R) (hq : ∀ b a n, R b a n → Realizes (q a) n (f b) S) :
    Realizes (p >>= q) m (x >>= f) S := by
  cases x with
  | ok b =>
    obtain ⟨a, n, hp, hR⟩ := h
    unfold Realizes
    rw [run_bind_of_ok hp]
    exact hq b a n hR
  | error e =>
    obtain ⟨n, hp⟩ := h
    exact ⟨n, run_bind_of_error hp⟩

/-- A step that only reads. -/
theorem read_bind {f : Mat → Except Error α} {q : α → InPlace γ} {g : α → Except Error δ}
    {S : δ → γ → Mat → Prop} (hq : ∀ a, f m = .ok a → Realizes (q a) m (g a) S) :
    Realizes (InPlace.reads f >>= q) m (f m >>= g) S := by
  cases h : f m with
  | ok a =>
    unfold Realizes
    rw [run_bind_of_ok (run_reads_of_ok h)]
    exact hq a h
  | error e => exact ⟨m, run_bind_of_error (run_reads_of_error h)⟩

/-- A computation that changes nothing if it fails leaves the matrix where the other one fails. -/
theorem run_of_error {e : Error} (h : Realizes p m x R) (hp : p.Atomic) (hx : x = .error e) :
    p.run m = .error e m := by
  rw [hx] at h
  obtain ⟨n, hrun⟩ := h
  rw [hrun, hp m e n hrun]

theorem onCopy (h : Realizes p m x R) : Realizes (onCopy p) m x R := by
  cases x with
  | ok b =>
    obtain ⟨a, n, hp, hR⟩ := h
    exact ⟨a, n, run_onCopy_of_ok hp, hR⟩
  | error e =>
    obtain ⟨n, hp⟩ := h
    exact ⟨m, run_onCopy_of_error hp⟩

theorem get_bind {q : Mat → InPlace α} (h : Realizes (q m) m x R) :
    Realizes (get >>= q) m x R :=
  h

/-- A loop that hands on nothing but the matrix. -/
theorem forM {f : α → InPlace Unit} {g : σ → α → Except Error σ} {R : σ → Mat → Prop}
    (step : ∀ a s m, R s m → Realizes (f a) m (g s a) fun t _ n => R t n) (l : List α) {s : σ}
    (h : R s m) : Realizes (l.forM f) m (l.foldlM g s) fun t _ n => R t n := by
  induction l generalizing s m with
  | nil => exact pure h
  | cons a l ih =>
    rw [List.foldlM_cons]
    apply (step a s m h).bind
    intro t _ n hn
    exact ih hn

theorem foldlM {f : τ → α → InPlace τ} {g : σ → α → Except Error σ} {R : σ → τ → Mat → Prop}
    (step : ∀ a s t m, R s t m → Realizes (f t a) m (g s a) R) (l : List α) {s : σ} {t : τ}
    (h : R s t m) : Realizes (l.foldlM f t) m (l.foldlM g s) R := by
  induction l generalizing s t m with
  | nil => exact pure h
  | cons a l ih =>
    rw [List.foldlM_cons, List.foldlM_cons]
    apply (step a s t m h).bind
    intro s' t' n hn
    exact ih hn

end Realizes

end InPlace

/-! ## Rows -/

namespace Mat

variable {m : Mat} {i : ℕ} {row : Vec}

theorem line_eq_ok_iff : m.line i = .ok row ↔ m.data[i]? = some row := by
  unfold line
  cases m.data[i]? <;> simp

theorem withLine_self (h : m.data[i]? = some row) : m.withLine i row = m := by
  obtain ⟨hlt, rfl⟩ := List.getElem?_eq_some_iff.1 h
  rw [withLine, List.set_getElem_self]

theorem withLine_withLine (row' : Vec) :
    (m.withLine i row).withLine i row' = m.withLine i row' := by
  rw [withLine, withLine, withLine, List.set_set]

theorem line_cases (m : Mat) (i : ℕ) :
    (∃ row, m.line i = .ok row) ∨ m.line i = .error .outOfRange := by
  unfold line
  cases m.data[i]? with
  | none => exact Or.inr rfl
  | some row => exact Or.inl ⟨row, rfl⟩

theorem line_of_length_le (h : m.data.length ≤ i) : m.line i = .error .outOfRange := by
  rw [line, List.getElem?_eq_none h]

theorem pick_take {k : ℕ} (h : i < k) : linePair.pick (m.data.take k) i = m.line i := by
  show linePair.pick (m.data.take k) i = linePair.pick m.data i
  rw [linePair.pick, linePair.pick, List.getElem?_take_of_lt h]

theorem pick_drop : linePair.pick (m.data.drop i) 0 = m.line i := by
  show linePair.pick (m.data.drop i) 0 = linePair.pick m.data i
  rw [linePair.pick, linePair.pick, List.getElem?_drop, Nat.add_zero]

/-- An entry is written where there is one. -/
theorem set_eq (m : Mat) (i j : ℕ) (x : Fraction) :
    m.set i j x = do
      checkIndex i m.rows
      checkIndex j m.cols
      let _ ← m.entry i j
      return m.withLine i (List.set (m.data.getD i []) j x) := by
  unfold set
  congr 1
  funext _
  congr 1
  funext _
  unfold entry
  rcases m.line_cases i with ⟨row, hrow⟩ | hrow
  · rw [hrow, List.getD_eq_getElem?_getD, line_eq_ok_iff.1 hrow]
    show (Vec.setEntry row j x >>= _) = Vec.entry row j >>= _
    unfold Vec.setEntry Vec.entry
    rcases Nat.lt_or_ge j row.length with hj | hj
    · rw [if_pos hj, List.getElem?_eq_getElem hj]
      rfl
    · rw [if_neg (Nat.not_lt.2 hj), List.getElem?_eq_none hj]
      rfl
  · rw [hrow]
    rfl

/-- Rows in two parts of a matrix are rows of the matrix. -/
theorem linePair_eq (m : Mat) (source target : ℕ) :
    m.linePair source target = do return (← m.line source, ← m.line target) := by
  unfold linePair
  split_ifs with hst hts
  · rcases Nat.lt_or_ge m.data.length target with hlt | hle
    · have hsplit : linePair.splitLines m target = .error .outOfRange := if_neg (Nat.not_le.2 hlt)
      rw [hsplit, line_of_length_le hlt.le]
      rcases m.line_cases source with ⟨row, hrow⟩ | hrow
      · rw [hrow]
        rfl
      · rw [hrow]
        rfl
    · have hsplit : linePair.splitLines m target = .ok (m.data.take target, m.data.drop target) :=
        (if_pos hle).trans (congrArg Except.ok List.splitAt_eq)
      rw [hsplit, ← pick_take hst, ← pick_drop]
      rfl
  · rcases Nat.lt_or_ge m.data.length source with hlt | hle
    · have hsplit : linePair.splitLines m source = .error .outOfRange := if_neg (Nat.not_le.2 hlt)
      rw [hsplit, line_of_length_le hlt.le]
      rfl
    · have hsplit : linePair.splitLines m source = .ok (m.data.take source, m.data.drop source) :=
        (if_pos hle).trans (congrArg Except.ok List.splitAt_eq)
      rw [hsplit, ← pick_take hts, ← pick_drop]
      rfl
  · rfl

end Mat

namespace InPlace

/-- The entries of a row are overwritten one after the other, those of `before` already are. -/
theorem run_forM_writeEntry (i : ℕ) (values : Vec) :
    ∀ (before old : Vec) (m : Mat), m.data[i]? = some (before ++ old) →
      values.length = old.length →
      ((values.zipIdx before.length).forM fun entry => writeEntry i entry.2 entry.1).run m =
        .ok () (m.withLine i (before ++ values)) := by
  induction values with
  | nil =>
    intro before old m hi hlen
    rw [List.eq_nil_of_length_eq_zero hlen.symm] at hi
    rw [Mat.withLine_self hi]
    rfl
  | cons x values ih =>
    intro before old m hi hlen
    obtain _ | ⟨y, old⟩ := old
    · cases hlen
    · have hlt : i < m.data.length := (List.getElem?_eq_some_iff.1 hi).1
      have hwrite : (writeEntry i before.length x).run m =
          .ok () (m.withLine i ((before ++ [x]) ++ old)) := by
        show EStateM.Result.ok () (m.withLine i _) = _
        rw [List.getD_eq_getElem?_getD, hi, Option.getD_some, List.set_append_right _ _ le_rfl,
          Nat.sub_self, List.set_cons_zero, List.append_assoc, List.singleton_append]
      have hrest := ih (before ++ [x]) old (m.withLine i ((before ++ [x]) ++ old))
        (List.getElem?_set_self hlt) (Nat.succ.inj hlen)
      rw [Mat.withLine_withLine, List.length_append, List.append_assoc before [x] values] at hrest
      rw [List.zipIdx_cons]
      exact (run_bind_of_ok hwrite).trans hrest

theorem run_overwriteLine {m : Mat} {i : ℕ} {row values : Vec} (hrow : m.line i = .ok row)
    (hlen : values.length = row.length) :
    (overwriteLine i values).run m = .ok () (m.withLine i values) :=
  run_forM_writeEntry i values [] row m (Mat.line_eq_ok_iff.1 hrow) hlen

/-- A row operation in place is the operation on the value. -/
theorem realizes_rowOp (op : RowOp) (m : Mat) :
    Realizes (rowOp op) m (op.apply m) fun n _ k => k = n := by
  cases op with
  | swap i j =>
    apply Realizes.read_bind
    intro upper _
    apply Realizes.read_bind
    intro lower _
    exact ⟨(), _, rfl, rfl⟩
  | scale factor i =>
    apply Realizes.read_bind
    intro row hrow
    apply Realizes.read_bind (f := fun _ => Vec.scale row factor)
    intro updated hupdated
    exact ⟨(), _, run_overwriteLine hrow (Vec.length_of_scale hupdated), rfl⟩
  | addScaled factor source target =>
    have hpair : (RowOp.addScaled factor source target).apply m = do
        let pair ← m.linePair source target
        return m.withLine target (← Vec.addScaled pair.2 factor pair.1) := by
      rw [m.linePair_eq]
      simp only [RowOp.apply, bind_assoc, pure_bind]
    rw [hpair]
    apply Realizes.read_bind
    rintro ⟨added, row⟩ hlines
    rw [m.linePair_eq] at hlines
    obtain ⟨_, -, h⟩ := bind_eq_ok_iff.1 hlines
    obtain ⟨_, hrow, ⟨⟩⟩ := bind_eq_ok_iff.1 h
    apply Realizes.read_bind (f := fun _ => Vec.addScaled row factor added)
    intro updated hupdated
    exact ⟨(), _, run_overwriteLine hrow (Vec.length_of_combine hupdated).2, rfl⟩

/-! ## Elimination -/

theorem realizes_apply (op : RowOp) (m : Mat) :
    Realizes (rowOp op) m (Tableau.apply ⟨m, none⟩ op).outcome fun t _ n => t = ⟨n, none⟩ := by
  rw [Tableau.outcome_apply_none, ← bind_pure (rowOp op)]
  apply (realizes_rowOp op m).bind
  rintro n _ _ rfl
  exact Realizes.pure rfl

/-- What has become of `m` when a column has been searched for a pivot: it is as it was, or it is
the matrix of the tableau that goes on. -/
inductive Searched (m : Mat) : Option Tableau → Bool → Mat → Prop
  | none : Searched m none false m
  | some (n : Mat) : Searched m (some ⟨n, none⟩) true n

theorem realizes_fetchPivot (col row : ℕ) (m : Mat) :
    Realizes (fetchPivot col row) m (Tableau.fetchPivot ⟨m, none⟩ col row).outcome
      fun o found n => Searched m (o.map Prod.fst) found n := by
  rw [Tableau.fetchPivot, Traced.outcome_bind]
  apply Realizes.read_bind
  intro o _
  cases o with
  | none => exact Realizes.pure Searched.none
  | some i =>
    by_cases hi : i = row
    · simp only [if_pos hi, if_neg (not_not.2 hi)]
      exact Realizes.pure (Searched.some m)
    · simp only [if_neg hi, if_pos hi]
      rw [Traced.outcome_bind]
      apply (realizes_apply (.swap row i) m).bind
      rintro _ _ n rfl
      exact Realizes.pure (Searched.some n)

theorem realizes_normalizeRow (col row : ℕ) (m : Mat) :
    Realizes (normalizeRow col row) m (Tableau.normalizeRow ⟨m, none⟩ col row).outcome
      fun t _ n => t = ⟨n, none⟩ := by
  rw [Tableau.normalizeRow, Traced.outcome_bind]
  apply Realizes.read_bind
  intro pivot _
  rw [Traced.outcome_bind]
  apply Realizes.read_bind (f := fun _ => pivot.recip)
  intro factor _
  exact realizes_apply (.scale factor row) m

theorem realizes_clearEntry (col row target : ℕ) {t : Tableau} {m : Mat} (h : t = ⟨m, none⟩) :
    Realizes (clearEntry col row target) m
      (Tableau.clearEntry Tableau.opposite col row t target).outcome
      fun t _ n => t = ⟨n, none⟩ := by
  subst h
  rw [Tableau.clearEntry, Traced.outcome_bind]
  apply Realizes.read_bind
  intro entry _
  by_cases hz : entry.isZero = true
  · simp only [if_pos hz]
    exact Realizes.pure rfl
  · simp only [if_neg hz]
    rw [Traced.outcome_bind]
    apply Realizes.read_bind (f := fun _ => Tableau.opposite entry)
    intro factor _
    exact realizes_apply (.addScaled factor row target) m

theorem realizes_clear (col row : ℕ) (l : List ℕ) (m : Mat) :
    Realizes (l.forM (clearEntry col row)) m
      (l.foldlM (Tableau.clearEntry Tableau.opposite col row) ⟨m, none⟩).outcome
      fun t _ n => t = ⟨n, none⟩ := by
  rw [Traced.outcome_foldlM]
  refine Realizes.forM (R := fun t n => t = Tableau.mk n none) ?_ l rfl
  intro i _ _ h
  exact realizes_clearEntry col row i h

theorem realizes_reduceColumn (col row : ℕ) (m : Mat) :
    Realizes (reduceColumn col row) m (Tableau.reduceColumn ⟨m, none⟩ col row).outcome
      (Searched m) := by
  rw [Tableau.reduceColumn, Traced.outcome_bind]
  apply (realizes_fetchPivot col row m).bind
  intro o found n h
  rcases o with _ | ⟨t, swapped⟩
  · cases h
    exact Realizes.pure Searched.none
  · cases h
    rw [if_pos rfl, Traced.outcome_bind]
    apply (realizes_normalizeRow col row n).bind
    rintro _ _ k rfl
    apply Realizes.get_bind
    rw [Traced.outcome_bind]
    apply (realizes_clear col row _ k).bind
    rintro _ _ l rfl
    exact Realizes.pure (Searched.some l)

theorem realizes_advance (pivots : List ℕ) (col : ℕ) (m : Mat) :
    Realizes (advance pivots col) m (Tableau.advance (⟨m, none⟩, pivots) col).outcome
      fun s pivots n => s = (⟨n, none⟩, pivots) := by
  rw [Tableau.advance, Traced.outcome_bind]
  apply (realizes_reduceColumn col pivots.length m).bind
  rintro _ _ n (_ | _)
  · exact Realizes.pure rfl
  · exact Realizes.pure rfl

theorem realizes_forward (m : Mat) :
    Realizes ((List.range m.cols).foldlM advance []) m (Tableau.forward ⟨m, none⟩).outcome
      fun s pivots n => s = (⟨n, none⟩, pivots) := by
  rw [Tableau.forward, Traced.outcome_foldlM]
  refine Realizes.foldlM (R := fun s pivots n => s = (Tableau.mk n none, pivots)) ?_ _ rfl
  rintro col _ pivots n rfl
  exact realizes_advance pivots col n

theorem realizes_upward (pivots : List ℕ) (m : Mat) :
    Realizes (pivots.zipIdx.reverse.forM fun pivot =>
        (List.range pivot.2).forM (clearEntry pivot.1 pivot.2)) m
      (Tableau.upward ⟨m, none⟩ pivots).outcome fun t _ n => t = ⟨n, none⟩ := by
  rw [Tableau.upward, Traced.outcome_foldlM]
  refine Realizes.forM (R := fun t n => t = Tableau.mk n none) ?_ _ rfl
  rintro pivot _ n rfl
  exact realizes_clear pivot.1 pivot.2 _ n

theorem realizes_eliminate (full : Bool) (m : Mat) :
    Realizes (eliminate full) m (Tableau.eliminate full ⟨m, none⟩).outcome
      fun s pivots n => s = (⟨n, none⟩, pivots) := by
  rw [Tableau.eliminate, Traced.outcome_bind]
  apply Realizes.get_bind
  apply (realizes_forward m).bind
  rintro _ pivots n rfl
  cases full with
  | false => exact Realizes.pure rfl
  | true =>
    simp only [if_true, Traced.outcome_bind]
    apply (realizes_upward pivots n).bind
    rintro _ _ k rfl
    exact Realizes.pure rfl

/-- The echelon form on a copy. -/
theorem realizes_gauss (full : Bool) (m : Mat) :
    Realizes (onCopy (eliminate full)) m (m.gauss full).outcome
      fun r pivots n => r = (pivots, n) := by
  rw [Mat.gauss, Traced.outcome_bind, ← bind_pure (onCopy (eliminate full))]
  apply (realizes_eliminate full m).onCopy.bind
  rintro _ pivots n rfl
  exact Realizes.pure rfl

/-! ## Changes of entries and rows -/

theorem realizes_setAt (i j : ℕ) (x : Fraction) (m : Mat) :
    Realizes (setAt i j x) m (m.set i j x) fun n _ k => k = n := by
  rw [m.set_eq]
  apply Realizes.read_bind
  intro _ _
  apply Realizes.read_bind
  intro _ _
  apply Realizes.read_bind
  intro _ _
  exact ⟨(), _, rfl, rfl⟩

theorem realizes_setRow (i : ℕ) (row : Vec) (m : Mat) :
    Realizes (setRow i row) m (m.setRow i row) fun r old n => r = (old, n) := by
  apply Realizes.read_bind
  intro _ _
  apply Realizes.read_bind
  intro _ _
  apply Realizes.read_bind
  intro old _
  exact ⟨_, _, rfl, rfl⟩

theorem realizes_forM_reads {α : Type} (f : α → Mat → Except Error Unit) (l : List α) (m : Mat) :
    Realizes (l.forM fun a => reads (f a)) m (l.forM fun a => f a m) fun _ _ n => n = m := by
  induction l with
  | nil => exact Realizes.pure rfl
  | cons a l ih =>
    apply Realizes.read_bind
    intro _ _
    exact ih

theorem realizes_replaceRows (data : List Vec) (m : Mat) :
    Realizes (replaceRows data) m (m.replaceRows data) fun r old n => r = (old, n) := by
  apply Realizes.read_bind
  intro _ _
  apply (realizes_forM_reads _ data m).bind
  rintro _ _ _ rfl
  exact ⟨_, _, rfl, rfl⟩

/-! ## Commands -/

theorem realizes_query {α : Type} (f : Mat → Traced α) (answer : α → Mat.Answer) (m : Mat) :
    Realizes (query (fun m => (f m).outcome) answer) m
      (f m >>= fun a => pure (answer a, m)).outcome fun r a n => r = (a, n) := by
  rw [Traced.outcome_bind]
  apply Realizes.read_bind
  intro a _
  exact Realizes.pure rfl

theorem realizes_produce (keep : Bool) (f : Mat → Traced Mat) (m : Mat) :
    Realizes (produce keep fun m => (f m).outcome) m
      (f m >>= fun r => pure (Mat.Command.keeping m keep r)).outcome fun r a n => r = (a, n) := by
  rw [Traced.outcome_bind]
  apply Realizes.read_bind
  intro r _
  cases keep with
  | false => exact Realizes.pure rfl
  | true => exact ⟨_, _, rfl, rfl⟩

end InPlace

namespace Mat.Command

open InPlace

theorem realizes_perform (c : Command) (m : Mat) :
    Realizes c.perform m (c.run m).outcome fun r a n => r = (a, n) := by
  cases c with
  | describe => exact realizes_query pure _ m
  | get i j => exact realizes_query (fun m => liftM (m.get i j)) _ m
  | entry i j => exact realizes_query (fun m => liftM (m.entry i j)) _ m
  | set i j x =>
    rw [run, Traced.outcome_bind]
    apply (realizes_setAt i j x m).bind
    rintro _ _ n rfl
    exact Realizes.pure rfl
  | row i => exact realizes_query (fun m => liftM (m.row i)) _ m
  | setRow i values =>
    rw [run, Traced.outcome_bind]
    apply (realizes_setRow i values m).bind
    rintro _ old n rfl
    exact Realizes.pure rfl
  | replaceRows data =>
    rw [run, Traced.outcome_bind]
    apply (realizes_replaceRows data m).bind
    rintro _ old n rfl
    exact Realizes.pure rfl
  | mulVec v => exact realizes_query (fun m => liftM (m.mulVec v)) _ m
  | solve b => exact realizes_query (fun m => m.solve b) _ m
  | determinant => exact realizes_query Mat.determinant _ m
  | rank => exact realizes_query Mat.rank _ m
  | gauss full =>
    rw [run, Traced.outcome_bind]
    apply (realizes_gauss full m).bind
    rintro _ pivots n rfl
    exact Realizes.pure rfl
  | text => exact realizes_query pure _ m
  | equal other => exact realizes_query pure _ m
  | rowOp op =>
    rw [run, Traced.outcome_bind]
    apply (realizes_rowOp op m).bind
    rintro _ _ n rfl
    exact Realizes.pure rfl
  | mul right keep => exact realizes_produce keep (fun m => liftM (m.mul right)) m
  | mulLeft left keep => exact realizes_produce keep (fun m => liftM (left.mul m)) m
  | transposed keep => exact realizes_produce keep (fun m => pure m.transposed) m
  | inverse keep => exact realizes_produce keep Mat.inverse m
  | hstack right keep => exact realizes_produce keep (fun m => liftM (m.hstack right)) m

end Mat.Command

end ExactLinAlg
