import ExactLinAlg.Proofs.Ends

/-!
# Computations that do the same

`Mirrors S R x y` compares two computations. Where `x` gives a result, so does `y`, and `R` relates
the two; where `x` fails, `y` fails for the same reason. Nothing is said of `y` where `x` fails for
a reason among `S`: with no such reason `x` gives a result where `y` does (`Mirrors.of_ok_right`),
and with some `y` may go on where `x` cannot. As for `Ends`, sequences and loops are compared step
by step.
-/

namespace ExactLinAlg

/-- The second computation ends as the first does, unless that fails for a reason among `S`. -/
def Mirrors {α β : Type} (S : Error → Prop) (R : α → β → Prop) :
    Except Error α → Except Error β → Prop
  | .ok a, y => ∃ b, y = .ok b ∧ R a b
  | .error e, y => S e ∨ y = .error e

namespace Mirrors

variable {α β γ δ σ τ : Type} {S : Error → Prop} {R : α → β → Prop} {x : Except Error α}
  {y : Except Error β}

theorem of_ok (h : Mirrors S R x y) {a : α} (hx : x = .ok a) : ∃ b, y = .ok b ∧ R a b := by
  subst hx
  exact h

theorem of_ok_right (h : Mirrors Error.Never R x y) {b : β} (hy : y = .ok b) :
    ∃ a, x = .ok a ∧ R a b := by
  subst hy
  cases x with
  | ok a =>
    obtain ⟨_, ⟨⟩, hR⟩ := h
    exact ⟨a, rfl, hR⟩
  | error e => exact nomatch h.resolve_left id

theorem pure {a : α} {b : β} (h : R a b) : Mirrors S R (Pure.pure a) (Pure.pure b) :=
  ⟨b, rfl, h⟩

theorem bind {Q : γ → δ → Prop} {f : α → Except Error γ} {g : β → Except Error δ}
    (h : Mirrors S R x y) (hf : ∀ a b, R a b → Mirrors S Q (f a) (g b)) :
    Mirrors S Q (x >>= f) (y >>= g) := by
  cases x with
  | ok a =>
    obtain ⟨b, rfl, hab⟩ := h
    exact hf a b hab
  | error e =>
    rcases h with hS | rfl
    · exact Or.inl hS
    · exact Or.inr rfl

/-- A computation mirrors itself. -/
theorem refl {R : α → α → Prop} (hR : ∀ a, x = .ok a → R a a) : Mirrors S R x x := by
  cases x with
  | ok a => exact ⟨a, rfl, hR a rfl⟩
  | error e => exact Or.inr rfl

/-! ## Loops -/

/-- Two loops over the same elements. -/
theorem foldlM {R : σ → τ → Prop} {f : σ → α → Except Error σ} {g : τ → α → Except Error τ}
    {l : List α} {s : σ} {t : τ} (h : R s t)
    (step : ∀ a ∈ l, ∀ s t, R s t → Mirrors S R (f s a) (g t a)) :
    Mirrors S R (l.foldlM f s) (l.foldlM g t) := by
  induction l generalizing s t with
  | nil => exact pure h
  | cons a l ih =>
    rw [List.foldlM_cons, List.foldlM_cons]
    apply (step a List.mem_cons_self s t h).bind
    intro s' t' h'
    exact ih h' fun b hb => step b (List.mem_cons_of_mem a hb)

/-- Two loops over the numbers below `n`, with a relation that depends on the number reached. -/
theorem foldlM_range {n : Nat} {R : Nat → σ → τ → Prop} {f : σ → Nat → Except Error σ}
    {g : τ → Nat → Except Error τ} {s : σ} {t : τ} (h : R 0 s t)
    (step : ∀ i, i < n → ∀ s t, R i s t → Mirrors S (R (i + 1)) (f s i) (g t i)) :
    Mirrors S (R n) ((List.range n).foldlM f s) ((List.range n).foldlM g t) := by
  induction n with
  | zero => exact pure h
  | succ n ih =>
    rw [List.range_succ, List.foldlM_append, List.foldlM_append]
    apply (ih fun i hi => step i (Nat.lt_succ_of_lt hi)).bind
    intro s' t' h'
    rw [List.foldlM_cons, List.foldlM_cons]
    apply (step n (Nat.lt_succ_self n) s' t' h').bind
    intro s'' t'' h''
    exact pure h''

end Mirrors

/-! ## Outcomes of traced computations -/

namespace Traced

variable {α β γ δ : Type} {S : Error → Prop}

theorem mirrors_bind {R : α → β → Prop} {Q : γ → δ → Prop} {x : Traced α} {y : Traced β}
    {f : α → Traced γ} {g : β → Traced δ} (h : Mirrors S R x.outcome y.outcome)
    (hf : ∀ a b, R a b → Mirrors S Q (f a).outcome (g b).outcome) :
    Mirrors S Q (x >>= f).outcome (y >>= g).outcome := by
  rw [outcome_bind, outcome_bind]
  exact h.bind hf

/-- Two computations that begin alike. -/
theorem mirrors_bind_of_eq {Q : γ → δ → Prop} {x y : Traced α} {f : α → Traced γ}
    {g : α → Traced δ} (h : x.outcome = y.outcome)
    (hf : ∀ a, Mirrors S Q (f a).outcome (g a).outcome) :
    Mirrors S Q (x >>= f).outcome (y >>= g).outcome := by
  apply mirrors_bind (R := fun a b => a = b)
  · rw [h]
    exact Mirrors.refl fun a _ => rfl
  · rintro a _ rfl
    exact hf a

end Traced

end ExactLinAlg
