import ExactLinAlg.Proofs.Decisions

/-!
# The steps of an inverse

An inverse is found by the full elimination, with the identity as a companion. The companion is
never read, so it can only make an operation fail, and as long as it does not the same operations
are carried out as without it. An exchange of rows is reported once for each of the two matrices.
`Traced.Doubles R x y` says this of two computations, and is kept by every step of an elimination
(`Tableau.doubles_eliminate`).
-/

namespace ExactLinAlg

/-- The reports of one step when it is carried out on two matrices. -/
def Event.onBoth : Event → List Event
  | .swapRows i j => [.swapRows i j, .swapRows i j]
  | e => [e]

/-! ## Computations that report exchanges twice -/

namespace Traced

variable {α β γ δ σ τ : Type}

/-- Where `x` gives a result, so does `y`, and `R` relates the two. Then `x` has reported what `y`
has, every exchange of rows twice. -/
def Doubles (R : α → β → Prop) (x : Traced α) (y : Traced β) : Prop :=
  ∀ a, x.outcome = .ok a → ∃ b, y.outcome = .ok b ∧ R a b ∧ x.events = y.events.flatMap Event.onBoth

namespace Doubles

variable {R : α → β → Prop} {Q : γ → δ → Prop} {x : Traced α} {y : Traced β}

theorem mirrors (h : Doubles R x y) : Mirrors Error.Any R x.outcome y.outcome := by
  cases hx : x.outcome with
  | error e => exact Or.inl trivial
  | ok a =>
    obtain ⟨b, hy, hab, -⟩ := h a hx
    exact ⟨b, hy, hab⟩

theorem pure {a : α} {b : β} (h : R a b) : Doubles R (Pure.pure a) (Pure.pure b) := by
  rintro _ ⟨⟩
  exact ⟨b, rfl, h, rfl⟩

/-- Steps that are not reported. -/
theorem of_silent (h : Mirrors Error.Any R x.outcome y.outcome) (hx : x.Silent) (hy : y.Silent) :
    Doubles R x y := by
  intro a ha
  obtain ⟨b, hb, hab⟩ := h.of_ok ha
  refine ⟨b, hb, hab, ?_⟩
  rw [hx.events_eq_nil, hy.events_eq_nil]
  rfl

/-- What is not an exchange of rows is reported once. -/
theorem refl {x : Traced α} (h : x.Reports fun e => e.onBoth = [e]) : Doubles Eq x x := by
  intro a ha
  refine ⟨a, ha, rfl, ?_⟩
  exact ((List.flatMap_congr h).trans (List.flatMap_singleton' x.events)).symm

theorem bind {f : α → Traced γ} {g : β → Traced δ} (h : Doubles R x y)
    (hf : ∀ a b, R a b → Doubles Q (f a) (g b)) : Doubles Q (x >>= f) (y >>= g) := by
  intro c hc
  obtain ⟨a, ha, hc⟩ := outcome_bind_eq_ok_iff.1 hc
  obtain ⟨b, hb, hab, hevents⟩ := h a ha
  obtain ⟨d, hd, hcd, hevents'⟩ := hf a b hab c hc
  rw [bind_of_ok ha, bind_of_ok hb]
  refine ⟨d, hd, hcd, ?_⟩
  rw [List.flatMap_append, hevents, hevents']

theorem foldlM {R : σ → τ → Prop} {f : σ → α → Traced σ} {g : τ → α → Traced τ} {l : List α} {s : σ}
    {t : τ} (h : R s t) (step : ∀ a ∈ l, ∀ s t, R s t → Doubles R (f s a) (g t a)) :
    Doubles R (l.foldlM f s) (l.foldlM g t) := by
  induction l generalizing s t with
  | nil => exact pure h
  | cons a l ih =>
    rw [List.foldlM_cons, List.foldlM_cons]
    apply (step a List.mem_cons_self s t h).bind
    intro s' t' h'
    exact ih h' fun b hb => step b (List.mem_cons_of_mem a hb)

end Doubles

end Traced

/-! ## Elimination with a companion and without it -/

namespace Tableau

/-- `t` has a companion, and `u` is `t` without it. -/
def Drops (t u : Tableau) : Prop := ∃ m k, t = ⟨m, some k⟩ ∧ u = ⟨m, none⟩

/-- An operation on both matrices is reported for each of them. -/
theorem events_apply_some {m n : Mat} (k : Mat) {op : RowOp} (h : op.apply m = .ok n) :
    (apply ⟨m, some k⟩ op).events = op.events ++ op.events := by
  have hperform : (op.perform m).outcome = .ok n := h
  rw [apply, Traced.bind_of_ok hperform, Option.mapM_some, map_eq_pure_bind]
  rw [Traced.events_bind_of_silent fun _ => Traced.reports_pure _,
    Traced.events_bind_of_silent fun _ => Traced.reports_pure _]
  rfl

theorem events_apply_none (m : Mat) (op : RowOp) : (apply ⟨m, none⟩ op).events = op.events :=
  Traced.events_bind_of_silent fun _ => Traced.reports_pure _

theorem doubles_apply {t u : Tableau} (h : Drops t u) (op : RowOp) :
    Traced.Doubles Drops (t.apply op) (u.apply op) := by
  obtain ⟨m, k, rfl, rfl⟩ := h
  intro v hv
  rw [outcome_apply_some] at hv
  obtain ⟨n, hn, hv⟩ := bind_eq_ok_iff.1 hv
  obtain ⟨l, hl, hv⟩ := bind_eq_ok_iff.1 hv
  cases hv
  refine ⟨⟨n, none⟩, ?_, ⟨n, l, rfl, rfl⟩, ?_⟩
  · rw [outcome_apply_none, hn]
    rfl
  · rw [events_apply_some k hn, events_apply_none]
    cases op <;> rfl

/-- A companion can make an operation fail, and nothing else. -/
theorem drops_simulation (c : ℕ) : Simulation Error.Any c Drops where
  rows := by
    rintro _ _ ⟨m, k, rfl, rfl⟩
    rfl
  entry := by
    rintro _ _ ⟨m, k, rfl, rfl⟩ i j -
    rfl
  apply h op := (doubles_apply h op).mirrors

section Steps

variable {t u : Tableau} (h : Drops t u) (col row : ℕ)
include h

theorem doubles_fetchPivot :
    Traced.Doubles (Option.Rel (Alongside Drops)) (t.fetchPivot col row)
      (u.fetchPivot col row) := by
  have hselect : t.main.selectPivot col row = u.main.selectPivot col row := by
    obtain ⟨m, k, rfl, rfl⟩ := h
    rfl
  have hreports := (Mat.reports_selectPivot_found u.main col row).mono
    (Q := fun e => e.onBoth = [e]) (by rintro _ ⟨i, x, rfl⟩; rfl)
  unfold fetchPivot
  rw [hselect]
  apply (Traced.Doubles.refl hreports).bind
  rintro o _ rfl
  cases o with
  | none => exact Traced.Doubles.pure Option.Rel.none
  | some i =>
    by_cases hi : i = row
    · simp only [if_pos hi]
      exact Traced.Doubles.pure (Option.Rel.some ⟨h, rfl⟩)
    · simp only [if_neg hi]
      apply (doubles_apply h (.swap row i)).bind
      intro t' u' h'
      exact Traced.Doubles.pure (Option.Rel.some ⟨h', rfl⟩)

theorem doubles_reduceColumn :
    Traced.Doubles (Option.Rel Drops) (t.reduceColumn col row) (u.reduceColumn col row) := by
  have hsim := drops_simulation (col + 1)
  apply (doubles_fetchPivot h col row).bind
  intro o o' hrel
  cases hrel with
  | none => exact Traced.Doubles.pure Option.Rel.none
  | some hfetched =>
    have hnormal := hsim.normalizeRow hfetched.1 (Nat.lt_succ_self col) row
    apply (Traced.Doubles.of_silent hnormal (silent_normalizeRow _ col row)
      (silent_normalizeRow _ col row)).bind
    intro v w hvw
    have hclear := hsim.clearBelow hvw (Nat.lt_succ_self col) row opposite
    apply (Traced.Doubles.of_silent hclear (silent_clearBelow _ v col row)
      (silent_clearBelow _ w col row)).bind
    intro v' w' hvw'
    exact Traced.Doubles.pure (Option.Rel.some hvw')

omit row in
theorem doubles_advance (pivots : List ℕ) :
    Traced.Doubles (Alongside Drops) (advance (t, pivots) col) (advance (u, pivots) col) := by
  apply (doubles_reduceColumn h col pivots.length).bind
  intro o o' hrel
  cases hrel with
  | none => exact Traced.Doubles.pure ⟨h, rfl⟩
  | some hreduced => exact Traced.Doubles.pure ⟨hreduced, rfl⟩

omit col row in
theorem doubles_forward : Traced.Doubles (Alongside Drops) t.forward u.forward := by
  have hcols : t.main.cols = u.main.cols := by
    obtain ⟨m, k, rfl, rfl⟩ := h
    rfl
  have hstart : Alongside Drops (t, []) (u, ([] : List ℕ)) := ⟨h, rfl⟩
  unfold forward
  rw [hcols]
  apply Traced.Doubles.foldlM hstart
  rintro k - ⟨v, pivots⟩ ⟨w, _⟩ ⟨hvw, rfl⟩
  exact doubles_advance hvw k pivots

end Steps

theorem silent_upward (t : Tableau) (pivots : List ℕ) : (t.upward pivots).Silent := by
  apply Traced.Reports.foldlM
  intro s pivot
  exact Traced.Reports.foldlM (silent_clearEntry opposite pivot.1 pivot.2) _ s

/-- An elimination with a companion reports what the one without it does, exchanges twice. -/
theorem doubles_eliminate {t u : Tableau} (h : Drops t u) (full : Bool) :
    Traced.Doubles (Alongside Drops) (t.eliminate full) (u.eliminate full) := by
  apply (doubles_forward h).bind
  rintro ⟨v, pivots⟩ ⟨w, _⟩ ⟨hvw, rfl⟩
  cases full with
  | false => exact Traced.Doubles.pure ⟨hvw, rfl⟩
  | true =>
    -- any bound of the pivots will do
    have hlt : ∀ p ∈ pivots, p < pivots.sum + 1 := fun p hp =>
      Nat.lt_succ_of_le (List.le_sum_of_mem hp)
    have hupward := (drops_simulation _).upward hvw hlt
    apply (Traced.Doubles.of_silent hupward (silent_upward v pivots) (silent_upward w pivots)).bind
    intro v' w' hvw'
    exact Traced.Doubles.pure ⟨hvw', rfl⟩

/-! ## Steps and conclusions -/

theorem reports_apply (t : Tableau) (op : RowOp) :
    (t.apply op).Reports fun e => e.level = .trace := by
  have hperform : ∀ m, (op.perform m).Reports fun e => e.level = .trace := by
    intro m e he
    cases op with
    | swap i j =>
      rw [List.mem_singleton.1 he]
      rfl
    | scale f i => exact nomatch he
    | addScaled f i j => exact nomatch he
  refine (hperform t.main).bind fun main => ?_
  refine Traced.Reports.bind ?_ fun companion => Traced.reports_pure _
  cases t.companion with
  | none => exact Traced.reports_pure none
  | some k =>
    rw [Option.mapM_some, map_eq_pure_bind]
    exact (hperform k).bind fun n => Traced.reports_pure _

theorem reports_reduceColumn (t : Tableau) (col row : ℕ) :
    (t.reduceColumn col row).Reports fun e => e.level = .trace := by
  have hsilent : ∀ {x : Traced Tableau}, x.Silent → x.Reports fun e => e.level = .trace :=
    fun h => h.mono fun _ => False.elim
  apply Traced.Reports.bind
  · apply (Mat.reports_selectPivot t.main col row).bind
    rintro (_ | i)
    · exact Traced.reports_pure none
    · dsimp only
      split
      · exact Traced.reports_pure _
      · exact (reports_apply t _).bind fun u => Traced.reports_pure _
  · rintro (_ | ⟨u, swapped⟩)
    · exact Traced.reports_pure none
    · apply (hsilent (silent_normalizeRow u col row)).bind
      intro v
      exact (hsilent (silent_clearBelow opposite v col row)).bind fun w => Traced.reports_pure _

/-- An elimination draws no conclusions. -/
theorem reports_eliminate (t : Tableau) (full : Bool) :
    (t.eliminate full).Reports fun e => e.level = .trace := by
  apply Traced.Reports.bind
  · apply Traced.Reports.foldlM
    rintro ⟨s, pivots⟩ k
    apply (reports_reduceColumn s k pivots.length).bind
    rintro (_ | u)
    · exact Traced.reports_pure _
    · exact Traced.reports_pure _
  · rintro ⟨s, pivots⟩
    cases full with
    | false => exact Traced.reports_pure _
    | true =>
      have hupward := (silent_upward s pivots).mono (Q := fun e => e.level = .trace)
        fun _ => False.elim
      exact hupward.bind fun u => Traced.reports_pure _

end Tableau

/-! ## The inverse -/

namespace Mat

theorem inverse_eq {m : Mat} (h : m.rows = m.cols) :
    m.inverse = Tableau.eliminate true ⟨m, some (identity m.cols)⟩ >>= fun s =>
      if s.2.length ≠ m.cols then
        Traced.report (.notInvertible s.2.length m.cols) >>= fun _ => Traced.fail .singular
      else
        return s.1.companion.getD s.1.main := by
  have hsquare : m.checkSquare = .ok () := checkSquare_eq_ok_iff.2 h
  rw [inverse, hsquare]
  rfl

theorem gauss_events (m : Mat) (full : Bool) :
    (m.gauss full).events = (Tableau.eliminate full ⟨m, none⟩).events :=
  Traced.events_bind_of_silent fun _ => Traced.reports_pure _

/-- The rank is the number of pivots of the reduced form. -/
theorem rank_of_gauss_true {m n : Mat} {pivots : List ℕ}
    (h : (m.gauss true).outcome = .ok (pivots, n)) : m.rank.outcome = .ok pivots.length := by
  obtain ⟨u, hu, -⟩ := gauss_eq_ok_iff.1 h
  obtain ⟨s, hs, -⟩ := Tableau.eliminate_eq_ok_iff.1 hu
  rw [rank, Traced.outcome_bind, gauss_of_forward hs]
  rfl

/-- Where the elimination with the identity beside the matrix ends, that of the matrix alone ends
with the same pivots. -/
theorem gauss_of_eliminate {m : Mat} {t : Tableau} {pivots : List ℕ}
    (h : (Tableau.eliminate true ⟨m, some (identity m.cols)⟩).outcome = .ok (t, pivots)) :
    (m.gauss true).outcome = .ok (pivots, t.main) ∧
      (Tableau.eliminate true ⟨m, some (identity m.cols)⟩).events =
        (m.gauss true).events.flatMap Event.onBoth := by
  have hdrops : Tableau.Drops ⟨m, some (identity m.cols)⟩ ⟨m, none⟩ := ⟨m, _, rfl, rfl⟩
  obtain ⟨⟨u, _⟩, hu, ⟨⟨n, l, rfl, rfl⟩, rfl⟩, hevents⟩ :=
    Tableau.doubles_eliminate hdrops true _ h
  rw [gauss_events]
  exact ⟨gauss_eq_ok_iff.2 ⟨_, hu, rfl⟩, hevents⟩

section Inverse

variable {m : Mat} (hsquare : m.rows = m.cols)
include hsquare

theorem inverse_of_error {e : Error}
    (h : (Tableau.eliminate true ⟨m, some (identity m.cols)⟩).outcome = .error e) :
    m.inverse.outcome = .error e ∧ ∀ e ∈ m.inverse.events, e.level = .trace := by
  rw [inverse_eq hsquare, Traced.bind_of_error h]
  exact ⟨rfl, Tableau.reports_eliminate _ true⟩

variable {t : Tableau} {pivots : List ℕ}
  (h : (Tableau.eliminate true ⟨m, some (identity m.cols)⟩).outcome = .ok (t, pivots))
include h

theorem inverse_of_full (hlen : pivots.length = m.cols) :
    m.inverse.outcome = .ok (t.companion.getD t.main) ∧
      m.inverse.events = (m.gauss true).events.flatMap Event.onBoth := by
  rw [inverse_eq hsquare, Traced.bind_of_ok h, (gauss_of_eliminate h).2, if_neg (not_not.2 hlen)]
  exact ⟨rfl, List.append_nil _⟩

theorem inverse_of_deficient (hlen : pivots.length ≠ m.cols) :
    m.inverse.outcome = .error .singular ∧
      m.inverse.events = (m.gauss true).events.flatMap Event.onBoth ++
        [.notInvertible pivots.length m.cols] := by
  rw [inverse_eq hsquare, Traced.bind_of_ok h, (gauss_of_eliminate h).2, if_pos hlen]
  exact ⟨rfl, rfl⟩

end Inverse

/-- **The steps of an inverse.** Where the inverse of a square matrix is found, or found not to
exist, the full elimination of the matrix ends, and the inverse has reported its steps, every
exchange of rows twice in a row. If there is no inverse one event follows, with the rank of the
matrix and the number of its columns, and there is such an event in no other case. An overflow of
the elimination is one of the inverse. -/
theorem inverse_steps {m : Mat} (hm : m.WellFormed) (hsquare : m.rows = m.cols) :
    ((∃ b, m.inverse.outcome = .ok b) ∨ m.inverse.outcome = .error .singular →
      ∃ pivots n, (m.gauss true).outcome = .ok (pivots, n) ∧ m.rank.outcome = .ok pivots.length ∧
        (∀ b, m.inverse.outcome = .ok b → pivots.length = m.cols ∧
          m.inverse.events = (m.gauss true).events.flatMap Event.onBoth) ∧
        (m.inverse.outcome = .error .singular → pivots.length < m.cols ∧
          m.inverse.events = (m.gauss true).events.flatMap Event.onBoth ++
            [.notInvertible pivots.length m.cols])) ∧
    ((∃ e ∈ m.inverse.events, e.level = .debug) ↔ m.inverse.outcome = .error .singular) ∧
    ((m.gauss true).outcome = .error .overflow → m.inverse.outcome = .error .overflow) := by
  have hnone {events : List Event} (h : ∀ e ∈ events, e.level = .trace) :
      ¬ ∃ e ∈ events, e.level = .debug := by
    rintro ⟨e, he, hdebug⟩
    rw [h e he] at hdebug
    cases hdebug
  have ht := Tableau.wellFormed_some hm rfl (wellFormed_identity m.cols) hsquare.symm
  have hends := Tableau.ends_eliminate ht true
  cases h : (Tableau.eliminate true ⟨m, some (identity m.cols)⟩).outcome with
  | error e =>
    obtain rfl := hends.of_error h
    obtain ⟨hfails, hlevel⟩ := inverse_of_error hsquare h
    rw [hfails]
    refine ⟨?_, iff_of_false (hnone hlevel) nofun, fun _ => rfl⟩
    rintro (⟨b, h⟩ | h) <;> cases h
  | ok s =>
    obtain ⟨t, pivots⟩ := s
    obtain ⟨hgauss, hevents⟩ := gauss_of_eliminate h
    have hrank := rank_of_gauss_true hgauss
    have hle : pivots.length ≤ m.cols := (hends.of_ok h).2.1.length_le
    by_cases hlen : pivots.length = m.cols
    · obtain ⟨hfound, hsteps⟩ := inverse_of_full hsquare h hlen
      have hlevel : ∀ e ∈ m.inverse.events, e.level = .trace := by
        rw [hsteps, ← hevents]
        exact Tableau.reports_eliminate _ true
      rw [hfound]
      exact ⟨fun _ => ⟨pivots, t.main, hgauss, hrank, fun _ _ => ⟨hlen, hsteps⟩, nofun⟩,
        iff_of_false (hnone hlevel) nofun, fun hfails => nomatch hgauss.symm.trans hfails⟩
    · obtain ⟨hsingular, hsteps⟩ := inverse_of_deficient hsquare h hlen
      have hdebug : ∃ e ∈ m.inverse.events, e.level = .debug := by
        rw [hsteps]
        exact ⟨_, List.mem_append_right _ (List.mem_singleton_self _), rfl⟩
      rw [hsingular]
      exact ⟨fun _ => ⟨pivots, t.main, hgauss, hrank, nofun,
          fun _ => ⟨lt_of_le_of_ne hle hlen, hsteps⟩⟩,
        iff_of_true hdebug rfl, fun hfails => nomatch hgauss.symm.trans hfails⟩

/-- A regular matrix and a singular one, both with an exchange of rows, and one with entries near
the bounds of a word. -/
theorem inverse_steps_two_by_two :
    let m : Mat := ⟨2, 2, [[0, 1], [1, 1]]⟩
    let s : Mat := ⟨2, 2, [[0, 0], [1, 1]]⟩
    let x : Fraction := ⟨9223372036854775807, 1, Word.one_pos, by decide, by decide⟩
    let l : Mat := ⟨2, 2, [[1, x], [1, -x]]⟩
    m.WellFormed ∧ (m.gauss true).events =
        [.selectedPivot 0 1 1, .swapRows 0 1, .selectedPivot 1 1 1] ∧
      m.inverse.outcome = .ok ⟨2, 2, [[-1, 1], [1, 0]]⟩ ∧
      m.inverse.events = (m.gauss true).events.flatMap Event.onBoth ∧
      s.WellFormed ∧ (s.gauss true).events =
        [.selectedPivot 0 1 1, .swapRows 0 1, .selectedPivot 1 1 0] ∧
      s.inverse.outcome = .error .singular ∧ s.rank.outcome = .ok 1 ∧
      s.inverse.events = (s.gauss true).events.flatMap Event.onBoth ++ [.notInvertible 1 2] ∧
      l.WellFormed ∧ (l.gauss true).outcome = .error .overflow ∧
      l.inverse.outcome = .error .overflow := by
  intro m s x l
  have hm : m.WellFormed := ⟨rfl, by decide⟩
  have hs : s.WellFormed := ⟨rfl, by decide⟩
  have hl : l.WellFormed := ⟨rfl, by decide⟩
  have hmevents : (m.gauss true).events =
      [.selectedPivot 0 1 1, .swapRows 0 1, .selectedPivot 1 1 1] := by
    decide +kernel
  have hinverse : m.inverse.outcome = .ok ⟨2, 2, [[-1, 1], [1, 0]]⟩ := by
    decide +kernel
  have hsevents : (s.gauss true).events =
      [.selectedPivot 0 1 1, .swapRows 0 1, .selectedPivot 1 1 0] := by
    decide +kernel
  have hsingular : s.inverse.outcome = .error .singular := by
    decide +kernel
  have hrank : s.rank.outcome = .ok 1 := by
    decide +kernel
  have hoverflow : (l.gauss true).outcome = .error .overflow := by
    decide +kernel
  obtain ⟨_, _, -, -, hfound, -⟩ := (inverse_steps hm rfl).1 (Or.inl ⟨_, hinverse⟩)
  obtain ⟨pivots, _, -, hpivots, -, hmissing⟩ := (inverse_steps hs rfl).1 (Or.inr hsingular)
  have hlen : pivots.length = 1 := Except.ok.inj (hpivots.symm.trans hrank)
  have hsteps := (hmissing hsingular).2
  rw [hlen] at hsteps
  exact ⟨hm, hmevents, hinverse, (hfound _ hinverse).2, hs, hsevents, hsingular, hrank, hsteps, hl,
    hoverflow, (inverse_steps hl rfl).2.2 hoverflow⟩

end Mat

end ExactLinAlg
