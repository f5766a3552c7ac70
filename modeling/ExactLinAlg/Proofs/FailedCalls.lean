import ExactLinAlg.Proofs.Reachable
import ExactLinAlg.Proofs.Realizes

/-!
# Failing calls change nothing

A call in place ends as the command does on the value of the matrix, and if it fails the matrix is
the one before (`Mat.Command.run_perform`). So a run of calls leads to the same matrix without those
that fail in it (`Mat.Command.afterAll_succeeding`).
-/

namespace ExactLinAlg

namespace Mat.Command

open InPlace

/-- How a call in place ends on `m` when the command has the result `r` there. -/
def ending (m : Mat) (r : Except Error (Answer × Mat)) : EStateM.Result Error Mat Answer :=
  match r with
  | .ok (a, n) => .ok a n
  | .error e => .error e m

/-- A call in place gives the answer and the matrix of the command, or fails as it does. -/
theorem run_perform (c : Command) (m : Mat) :
    c.perform.run m = ending m (c.run m).outcome := by
  have hrealizes := realizes_perform c m
  cases h : (c.run m).outcome with
  | ok r =>
    rw [h] at hrealizes
    obtain ⟨a, n, hrun, rfl⟩ := hrealizes
    exact hrun
  | error e => exact hrealizes.run_of_error (atomic_perform c) h

theorem run_perform_eq_ok_iff {c : Command} {m n : Mat} {a : Answer} :
    c.perform.run m = .ok a n ↔ (c.run m).outcome = .ok (a, n) := by
  rw [run_perform]
  cases (c.run m).outcome with
  | ok r =>
    constructor
    · rintro ⟨⟩
      rfl
    · rintro ⟨⟩
      rfl
  | error e =>
    constructor
    · rintro ⟨⟩
    · rintro ⟨⟩

theorem run_perform_eq_error_iff {c : Command} {m n : Mat} {e : Error} :
    c.perform.run m = .error e n ↔ (c.run m).outcome = .error e ∧ n = m := by
  rw [run_perform]
  cases (c.run m).outcome with
  | ok r =>
    constructor
    · rintro ⟨⟩
    · rintro ⟨⟨⟩, -⟩
  | error e =>
    constructor
    · rintro ⟨⟩
      exact ⟨rfl, rfl⟩
    · rintro ⟨⟨⟩, rfl⟩
      rfl

theorem after_perform (c : Command) (m : Mat) : c.perform.after m = c.after m := by
  unfold InPlace.after Command.after next
  rw [run_perform]
  cases (c.run m).outcome <;> rfl

/-! ## Runs of calls -/

/-- The matrix after a run of calls, each of which may fail. -/
def afterAll (m : Mat) (calls : List Command) : Mat := calls.foldl (fun m c => c.perform.after m) m

/-- The calls of a run that succeed. -/
def succeeding (m : Mat) : List Command → List Command
  | [] => []
  | c :: calls =>
    match c.perform.run m with
    | .ok _ n => c :: succeeding n calls
    | .error _ n => succeeding n calls

theorem wellFormed_afterAll {m : Mat} (hm : m.WellFormed) {calls : List Command}
    (hops : ∀ c ∈ calls, ∀ n ∈ c.operands, n.WellFormed) : (afterAll m calls).WellFormed := by
  induction calls generalizing m with
  | nil => exact hm
  | cons c calls ih =>
    have hstep : (c.perform.after m).WellFormed := by
      rw [after_perform]
      exact wellFormed_after hm c (hops c List.mem_cons_self)
    exact ih hstep fun d hd => hops d (List.mem_cons_of_mem c hd)

/-- A run might as well do without the calls that fail in it. -/
theorem afterAll_succeeding (m : Mat) (calls : List Command) :
    afterAll m (succeeding m calls) = afterAll m calls := by
  induction calls generalizing m with
  | nil => rfl
  | cons c calls ih =>
    have hrest : afterAll m (c :: calls) = afterAll (c.perform.after m) calls := rfl
    cases h : c.perform.run m with
    | ok a n =>
      have hcons : succeeding m (c :: calls) = c :: succeeding n calls := by
        rw [succeeding, h]
      rw [hrest, hcons, after_of_ok h, ← ih n, ← after_of_ok h]
      rfl
    | error e n =>
      have hskip : succeeding m (c :: calls) = succeeding n calls := by
        rw [succeeding, h]
      rw [hrest, hskip, after_of_error h, ← ih n, atomic_perform c m e n h]

end Mat.Command

/-! ## Rows out of range -/

theorem Mat.WellFormed.lines_of_not_lt {m : Mat} (hm : m.WellFormed) {i j : ℕ}
    (h : ¬ (i < m.rows ∧ j < m.rows)) {β : Type} (f : Vec → Vec → Except Error β) :
    (do
      let upper ← m.line i
      let lower ← m.line j
      f upper lower) = .error .outOfRange := by
  rcases Nat.lt_or_ge i m.rows with hi | hi
  · have hj : m.rows ≤ j := Nat.le_of_not_lt fun hj => h ⟨hi, hj⟩
    obtain ⟨row, -, hrow, -⟩ := hm.line_eq_ok hi
    rw [hrow, hm.line_of_le hj]
    rfl
  · rw [hm.line_of_le hi]
    rfl

/-- A row operation fails for this reason if one of its rows lies outside the matrix. -/
theorem RowOp.apply_eq_outOfRange_iff {m : Mat} (hm : m.WellFormed) (op : RowOp) :
    op.apply m = .error .outOfRange ↔ ¬ op.InRange m.rows := by
  constructor
  · intro h hrange
    exact nomatch (ends_apply hm hrange).of_error h
  · intro h
    cases op with
    | swap i j => exact hm.lines_of_not_lt h _
    | scale factor i =>
      rw [RowOp.apply, hm.line_of_le (Nat.le_of_not_lt h)]
      rfl
    | addScaled factor source target => exact hm.lines_of_not_lt h _

/-! ## Rows given back -/

namespace Mat

variable {m n : Mat}

theorem line_withLine {i : ℕ} (hi : i < m.data.length) (row : Vec) :
    (m.withLine i row).line i = .ok row :=
  line_eq_ok_iff.2 (List.getElem?_set_self hi)

theorem line_withLine_of_ne {i j : ℕ} (h : j ≠ i) (row : Vec) :
    (m.withLine i row).line j = m.line j := by
  rw [line, line, withLine, List.getElem?_set_ne h.symm]

theorem setRow_eq_ok_iff (hm : m.WellFormed) {i : ℕ} {values old : Vec} :
    m.setRow i values = .ok (old, n) ↔
      m.line i = .ok old ∧ values.length = m.cols ∧ n = m.withLine i values := by
  constructor
  · intro h
    obtain ⟨_, -, h⟩ := bind_eq_ok_iff.1 h
    obtain ⟨_, hdims, h⟩ := bind_eq_ok_iff.1 h
    obtain ⟨_, hold, ⟨⟩⟩ := bind_eq_ok_iff.1 h
    exact ⟨hold, (checkDims_eq_ok_iff.1 hdims).symm, rfl⟩
  · rintro ⟨hold, hlen, rfl⟩
    have hi : i < m.rows := by
      by_contra hge
      exact nomatch hold.symm.trans (hm.line_of_le (Nat.le_of_not_lt hge))
    exact bind_eq_ok_iff.2 ⟨(), checkIndex_eq_ok_iff.2 hi,
      bind_eq_ok_iff.2 ⟨(), checkDims_eq_ok_iff.2 hlen.symm, bind_eq_ok_iff.2 ⟨old, hold, rfl⟩⟩⟩

theorem replaceRows_eq_ok_iff {data old : List Vec} :
    m.replaceRows data = .ok (old, n) ↔ data.length = m.rows ∧
      (∀ row ∈ data, row.length = m.cols) ∧ old = m.data ∧ n = { m with data } := by
  constructor
  · intro h
    obtain ⟨_, hdims, h⟩ := bind_eq_ok_iff.1 h
    obtain ⟨_, hrows, ⟨⟩⟩ := bind_eq_ok_iff.1 h
    refine ⟨(checkDims_eq_ok_iff.1 hdims).symm, ?_, rfl, rfl⟩
    intro row hrow
    exact (checkDims_eq_ok_iff.1 (forM_eq_ok_iff.1 hrows row hrow)).symm
  · rintro ⟨hlen, hrows, rfl, rfl⟩
    refine bind_eq_ok_iff.2 ⟨(), checkDims_eq_ok_iff.2 hlen.symm, bind_eq_ok_iff.2 ⟨(), ?_, rfl⟩⟩
    exact forM_eq_ok_iff.2 fun row hrow => checkDims_eq_ok_iff.2 (hrows row hrow).symm

/-- The row that has been replaced can be put back. -/
theorem setRow_setRow (hm : m.WellFormed) {i : ℕ} {values old : Vec}
    (h : m.setRow i values = .ok (old, n)) : n.setRow i old = .ok (values, m) := by
  obtain ⟨hold, hlen, rfl⟩ := (setRow_eq_ok_iff hm).1 h
  have hdata := line_eq_ok_iff.1 hold
  refine (setRow_eq_ok_iff (hm.withLine i hlen)).2 ⟨?_, hm.length_of_line hold, ?_⟩
  · exact line_withLine (List.getElem?_eq_some_iff.1 hdata).1 values
  · rw [withLine_withLine, withLine_self hdata]

/-- The rows that have been replaced can be put back. -/
theorem replaceRows_replaceRows (hm : m.WellFormed) {data old : List Vec}
    (h : m.replaceRows data = .ok (old, n)) : n.replaceRows old = .ok (data, m) := by
  obtain ⟨-, -, rfl, rfl⟩ := replaceRows_eq_ok_iff.1 h
  exact replaceRows_eq_ok_iff.2 ⟨hm.length_data, hm.length_row, rfl, rfl⟩

end Mat

namespace Mat.Command

open InPlace

/-- A change answers with what it hands out. -/
theorem outcome_handsOut_eq_ok_iff {β : Type} {x : Except Error (β × Mat)} {answer : β → Answer}
    {a : Answer} {n : Mat} :
    ((liftM x : Traced (β × Mat)) >>= fun r => pure (answer r.1, r.2)).outcome = .ok (a, n) ↔
      ∃ b, a = answer b ∧ x = .ok (b, n) := by
  rw [Traced.outcome_bind_eq_ok_iff]
  constructor
  · rintro ⟨⟨b, _⟩, h, ⟨⟩⟩
    exact ⟨b, rfl, h⟩
  · rintro ⟨b, rfl, h⟩
    exact ⟨(b, n), h, rfl⟩

theorem outcome_setRow_eq_ok_iff {m n : Mat} {i : ℕ} {values : Vec} {a : Answer} :
    ((setRow i values).run m).outcome = .ok (a, n) ↔
      ∃ old, a = .vector old ∧ m.setRow i values = .ok (old, n) :=
  outcome_handsOut_eq_ok_iff

theorem outcome_replaceRows_eq_ok_iff {m n : Mat} {data : List Vec} {a : Answer} :
    ((replaceRows data).run m).outcome = .ok (a, n) ↔
      ∃ old, a = .vectors old ∧ m.replaceRows data = .ok (old, n) :=
  outcome_handsOut_eq_ok_iff

theorem outcome_rowOp_eq_error_iff {m : Mat} {op : RowOp} {e : Error} :
    ((rowOp op).run m).outcome = .error e ↔ op.apply m = .error e := by
  have hrun : ((rowOp op).run m).outcome = (op.apply m >>= fun n => .ok (.done, n)) := by
    rw [run, Traced.outcome_bind]
    rfl
  rw [hrun]
  cases op.apply m with
  | ok n =>
    constructor
    · intro h
      cases h
    · intro h
      cases h
  | error f =>
    constructor
    · rintro ⟨⟩
      rfl
    · rintro ⟨⟩
      rfl

/-- **Failing calls change nothing.** Whatever calls have led to a matrix, one that fails on it
leaves it as it is, so they lead to the same matrix without those that fail among them. In place
every call has the result of the command on the value. The echelon form leaves the matrix wherever
the elimination fails, whatever that has changed on its copy by then. A row operation fails for a
row out of range exactly if one of its rows is. Rows that are replaced are given back and nothing
else is changed, so putting them back restores the matrix. -/
theorem calls_atomic {m : Mat} (hm : m.WellFormed) {calls : List Command}
    (hops : ∀ c ∈ calls, ∀ n ∈ c.operands, n.WellFormed) :
    let k := afterAll m calls
    (∀ (c : Command) (e : Error) (n : Mat), c.perform.run k = .error e n → n = k) ∧
    afterAll m (succeeding m calls) = k ∧
    (∀ c : Command, c.perform.run k = ending k (c.run k).outcome) ∧
    (∀ (full : Bool) (e : Error) (n : Mat), (eliminate full).run k = .error e n →
      (gauss full).perform.run k = .error e k) ∧
    (∀ op : RowOp, (rowOp op).perform.run k = .error .outOfRange k ↔ ¬ op.InRange k.rows) ∧
    (∀ (i : ℕ) (values : Vec) (a : Answer) (n : Mat),
      (setRow i values).perform.run k = .ok a n →
        ∃ old, a = .vector old ∧ k.line i = .ok old ∧ n.line i = .ok values ∧
          (∀ j, j ≠ i → n.line j = k.line j) ∧ n.rows = k.rows ∧ n.cols = k.cols ∧
          (setRow i old).perform.run n = .ok (.vector values) k) ∧
    ∀ (data : List Vec) (a : Answer) (n : Mat), (replaceRows data).perform.run k = .ok a n →
      a = .vectors k.data ∧ n = ⟨k.rows, k.cols, data⟩ ∧
        (replaceRows k.data).perform.run n = .ok (.vectors data) k := by
  intro k
  have hk : k.WellFormed := wellFormed_afterAll hm hops
  refine ⟨fun c e n h => atomic_perform c k e n h, afterAll_succeeding m calls,
    fun c => run_perform c k, ?_, ?_, ?_, ?_⟩
  · intro full e n h
    exact run_bind_of_error (run_onCopy_of_error h)
  · intro op
    rw [run_perform_eq_error_iff, outcome_rowOp_eq_error_iff, RowOp.apply_eq_outOfRange_iff hk]
    exact and_iff_left rfl
  · intro i values a n h
    obtain ⟨old, ha, hset⟩ := outcome_setRow_eq_ok_iff.1 (run_perform_eq_ok_iff.1 h)
    obtain ⟨hold, -, hn⟩ := (setRow_eq_ok_iff hk).1 hset
    have hback := setRow_setRow hk hset
    have hdata := List.getElem?_eq_some_iff.1 (line_eq_ok_iff.1 hold)
    refine ⟨old, ha, hold, ?_, ?_, ?_, ?_, ?_⟩
    · rw [hn, line_withLine hdata.1]
    · intro j hj
      rw [hn, line_withLine_of_ne hj]
    · rw [hn]
      rfl
    · rw [hn]
      rfl
    · exact run_perform_eq_ok_iff.2 (outcome_setRow_eq_ok_iff.2 ⟨values, rfl, hback⟩)
  · intro data a n h
    obtain ⟨old, ha, hset⟩ := outcome_replaceRows_eq_ok_iff.1 (run_perform_eq_ok_iff.1 h)
    have hback := replaceRows_replaceRows hk hset
    obtain ⟨-, -, rfl, hn⟩ := replaceRows_eq_ok_iff.1 hset
    exact ⟨ha, hn, run_perform_eq_ok_iff.2 (outcome_replaceRows_eq_ok_iff.2 ⟨data, rfl, hback⟩)⟩

/-- Calls fail before and after an exchange of rows, one in the middle of an elimination. -/
theorem calls_atomic_three_by_two :
    let x : Fraction := ⟨9223372036854775807, 1, Word.one_pos, by decide, by decide⟩
    let m : Mat := ⟨3, 2, [[1, -x], [0, 1], [1, x]]⟩
    let k : Mat := ⟨3, 2, [[0, 1], [1, -x], [1, x]]⟩
    let calls : List Command := [rowOp (.swap 0 7), rowOp (.swap 0 1), set 0 5 0, gauss false]
    m.WellFormed ∧ afterAll m calls = k ∧ afterAll m (succeeding m calls) = k ∧
      (∃ n, (eliminate false).run k = .error .overflow n ∧ n ≠ k) ∧
      (gauss false).perform.run k = .error .overflow k ∧
      (rowOp (.swap 0 3)).perform.run k = .error .outOfRange k ∧
      (rowOp (.addScaled 1 3 0)).perform.run k = .error .outOfRange k ∧
      (∃ n, (setRow 0 [x, x]).perform.run k = .ok (.vector [0, 1]) n ∧ n.line 1 = k.line 1 ∧
        (setRow 0 [0, 1]).perform.run n = .ok (.vector [x, x]) k) ∧
      ∃ n, (replaceRows [[0, 0], [x, x], [1, 1]]).perform.run k = .ok (.vectors k.data) n ∧
        (replaceRows k.data).perform.run n = .ok (.vectors [[0, 0], [x, x], [1, 1]]) k := by
  intro x m k calls
  have hm : m.WellFormed := ⟨rfl, by decide⟩
  have hops : ∀ c ∈ calls, ∀ n ∈ c.operands, n.WellFormed := by
    intro c hc n hn
    simp only [calls, List.mem_cons, List.not_mem_nil, or_false] at hc
    rcases hc with rfl | rfl | rfl | rfl <;> cases hn
  have hafter : afterAll m calls = k := by
    decide +kernel
  have hoverflow : ((Tableau.eliminate false ⟨k, none⟩).outcome) = .error .overflow := by
    decide +kernel
  have hchanged : (eliminate false).after k ≠ k := by
    decide +kernel
  have hrow : k.setRow 0 [x, x] = .ok ([0, 1], ⟨3, 2, [[x, x], [1, -x], [1, x]]⟩) := by
    decide +kernel
  have hrows : k.replaceRows [[0, 0], [x, x], [1, 1]] =
      .ok (k.data, ⟨3, 2, [[0, 0], [x, x], [1, 1]]⟩) := by
    decide +kernel
  obtain ⟨n, hn⟩ : ∃ n, (eliminate false).run k = .error .overflow n := by
    have hrun := realizes_eliminate false k
    rw [hoverflow] at hrun
    exact hrun
  have hall := calls_atomic hm hops
  rw [hafter] at hall
  obtain ⟨-, hsucceeding, -, hgauss, hrange, hset, hreplace⟩ := hall
  refine ⟨hm, hafter, hsucceeding, ⟨n, hn, ?_⟩, hgauss false .overflow n hn,
    (hrange (.swap 0 3)).2 fun h => lt_irrefl 3 h.2,
    (hrange (.addScaled 1 3 0)).2 fun h => lt_irrefl 3 h.1, ?_, ?_⟩
  · rwa [after_of_error hn] at hchanged
  · have h := run_perform_eq_ok_iff.2 (outcome_setRow_eq_ok_iff.2 ⟨_, rfl, hrow⟩)
    obtain ⟨_, ⟨⟩, -, -, hother, -, -, hback⟩ := hset 0 [x, x] _ _ h
    exact ⟨_, h, hother 1 (by decide), hback⟩
  · have h := run_perform_eq_ok_iff.2 (outcome_replaceRows_eq_ok_iff.2 ⟨_, rfl, hrows⟩)
    exact ⟨_, h, (hreplace _ _ _ h).2.2⟩

end Mat.Command

end ExactLinAlg
