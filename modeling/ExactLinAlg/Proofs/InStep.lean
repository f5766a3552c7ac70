import ExactLinAlg.Proofs.Arithmetic

/-!
# Computations that report the same steps

`InStep Z x y` compares two computations by what they report. Unless one of them overflows, both
report the same steps, and what they do after these is related by `Z`. With `Z` the relation
`Both R`, both come to related results. Sequences are compared step by step (`InStep.bind`), with
any relation for what is done last, so the two may end in different ways.

`Reports P x` says what the events of a computation are. One that reports nothing may be put in
step with another such one by its results alone (`InStep.of_ends`).
-/

namespace ExactLinAlg.Traced

variable {α β γ δ σ : Type}

/-! ## Events of a computation -/

/-- Every event of the computation has the property `P`. -/
def Reports (P : Event → Prop) (x : Traced α) : Prop := ∀ e ∈ x.events, P e

/-- The computation reports nothing. -/
abbrev Silent (x : Traced α) : Prop := x.Reports fun _ => False

section Reports

variable {P Q : Event → Prop} {x : Traced α} {f : α → Traced β}

theorem Reports.mono (h : x.Reports P) (hPQ : ∀ e, P e → Q e) : x.Reports Q :=
  fun e he => hPQ e (h e he)

theorem Silent.events_eq_nil (h : x.Silent) : x.events = [] :=
  List.eq_nil_iff_forall_not_mem.2 h

theorem silent_of_events (h : x.events = []) : x.Silent :=
  List.eq_nil_iff_forall_not_mem.1 h

theorem reports_pure (a : α) : (pure a : Traced α).Reports P := List.forall_mem_nil P

theorem reports_lift (o : Except Error α) : (liftM o : Traced α).Reports P := List.forall_mem_nil P

theorem Reports.bind (hx : x.Reports P) (hf : ∀ a, (f a).Reports P) : (x >>= f).Reports P := by
  cases h : x.outcome with
  | error e =>
    rw [bind_of_error h]
    exact hx
  | ok a =>
    rw [bind_of_ok h]
    intro e he
    exact (List.mem_append.1 he).elim (hx e) (hf a e)

/-- What reports nothing may be done after a computation. -/
theorem events_bind_of_silent (hf : ∀ a, (f a).Silent) : (x >>= f).events = x.events := by
  cases h : x.outcome with
  | error e => rw [bind_of_error h]
  | ok a => rw [bind_of_ok h, (hf a).events_eq_nil, List.append_nil]

theorem Reports.foldlM {f : σ → α → Traced σ} (hf : ∀ s a, (f s a).Reports P) (l : List α) (s : σ) :
    (l.foldlM f s).Reports P := by
  induction l generalizing s with
  | nil => exact reports_pure s
  | cons a l ih =>
    rw [List.foldlM_cons]
    exact (hf s a).bind ih

end Reports

/-! ## Common steps -/

/-- The computation, reported after other events. -/
def after (events : List Event) (x : Traced α) : Traced α := ⟨events ++ x.events, x.outcome⟩

theorem after_nil (x : Traced α) : x.after [] = x := rfl

theorem after_append (events events' : List Event) (x : Traced α) :
    x.after (events ++ events') = (x.after events').after events :=
  ext_parts (List.append_assoc events events' x.events) rfl

theorem after_pure_bind (events : List Event) (a : α) (f : α → Traced β) :
    (pure a : Traced α).after events >>= f = (f a).after events := by
  rw [bind_of_ok (a := a) rfl, after, after, events_pure, List.append_nil]

/-- Unless one of them overflows, the two computations report the same steps, and what they do after
these is related by `Z`. -/
def InStep (Z : Traced α → Traced β → Prop) (x : Traced α) (y : Traced β) : Prop :=
  x.outcome = .error .overflow ∨ y.outcome = .error .overflow ∨
    ∃ events x' y', (∀ e ∈ events, e.level = .trace) ∧ x = x'.after events ∧
      y = y'.after events ∧ Z x' y'

/-- Both computations only give a result, and `R` relates the two. -/
inductive Both (R : α → β → Prop) : Traced α → Traced β → Prop
  | intro {a : α} {b : β} (h : R a b) : Both R (pure a) (pure b)

namespace InStep

variable {R : α → β → Prop} {Z : Traced γ → Traced δ → Prop} {x : Traced α} {y : Traced β}

theorem of_last {Z : Traced α → Traced β → Prop} (h : Z x y) : InStep Z x y :=
  Or.inr (Or.inr ⟨[], x, y, List.forall_mem_nil _, (after_nil x).symm, (after_nil y).symm, h⟩)

theorem pure {a : α} {b : β} (h : R a b) : InStep (Both R) (Pure.pure a) (Pure.pure b) :=
  of_last (Both.intro h)

/-- Common steps before. -/
theorem after {Z : Traced α → Traced β → Prop} (h : InStep Z x y) {events : List Event}
    (hlevel : ∀ e ∈ events, e.level = .trace) : InStep Z (x.after events) (y.after events) := by
  rcases h with hx | hy | ⟨events', x', y', hlevel', rfl, rfl, hZ⟩
  · exact Or.inl hx
  · exact Or.inr (Or.inl hy)
  · refine Or.inr (Or.inr ⟨events ++ events', x', y', ?_, ?_, ?_, hZ⟩)
    · exact List.forall_mem_append.2 ⟨hlevel, hlevel'⟩
    · exact (after_append events events' x').symm
    · exact (after_append events events' y').symm

/-- Two computations that report the same. -/
theorem of_ends {P : α → Prop} {Q : β → Prop} (hevents : x.events = y.events)
    (hlevel : x.Reports fun e => e.level = .trace) (hx : Ends Error.IsOverflow P x.outcome)
    (hy : Ends Error.IsOverflow Q y.outcome) (h : ∀ a b, P a → Q b → R a b) :
    InStep (Both R) x y := by
  cases hxo : x.outcome with
  | error e => exact Or.inl (hxo.trans (congrArg Except.error (hx.of_error hxo)))
  | ok a =>
    cases hyo : y.outcome with
    | error e => exact Or.inr (Or.inl (hyo.trans (congrArg Except.error (hy.of_error hyo))))
    | ok b =>
      have hxe : x = (Pure.pure a : Traced α).after x.events :=
        ext_parts (List.append_nil _).symm hxo
      have hye : y = (Pure.pure b : Traced β).after x.events :=
        ext_parts (hevents.symm.trans (List.append_nil _).symm) hyo
      exact Or.inr (Or.inr ⟨x.events, _, _, hlevel, hxe, hye,
        Both.intro (h a b (hx.of_ok hxo) (hy.of_ok hyo))⟩)

variable {f : α → Traced γ} {g : β → Traced δ}

theorem bind (h : InStep (Both R) x y) (hf : ∀ a b, R a b → InStep Z (f a) (g b)) :
    InStep Z (x >>= f) (y >>= g) := by
  rcases h with hx | hy | ⟨events, _, _, hlevel, rfl, rfl, @⟨a, b, hab⟩⟩
  · refine Or.inl ?_
    rw [outcome_bind, hx]
    rfl
  · refine Or.inr (Or.inl ?_)
    rw [outcome_bind, hy]
    rfl
  · rw [after_pure_bind, after_pure_bind]
    exact (hf a b hab).after hlevel

/-- Two computations that begin alike. -/
theorem bind_of_eq {P : α → Prop} {g : α → Traced δ} {x y : Traced α} (hxy : x = y)
    (hlevel : x.Reports fun e => e.level = .trace) (hx : Ends Error.IsOverflow P x.outcome)
    (hf : ∀ a, P a → InStep Z (f a) (g a)) : InStep Z (x >>= f) (y >>= g) := by
  subst hxy
  have hself : Ends Error.IsOverflow (fun a => x.outcome = .ok a ∧ P a) x.outcome :=
    hx.strengthen fun a ha hP => ⟨ha, hP⟩
  have hboth : InStep (Both fun a b => a = b ∧ P a) x x := by
    apply of_ends rfl hlevel hself hself
    rintro a b ⟨ha, hP⟩ ⟨hb, -⟩
    exact ⟨Except.ok.inj (ha.symm.trans hb), hP⟩
  apply hboth.bind
  rintro a _ ⟨rfl, hP⟩
  exact hf a hP

end InStep

end ExactLinAlg.Traced
