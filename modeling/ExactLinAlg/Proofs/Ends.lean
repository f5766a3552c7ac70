import ExactLinAlg.Trace
import Mathlib.Data.List.Forall2

/-!
# How computations end

`Ends E P x` says of a computation `x` that it ends with a result that has the property `P`, or
with a failure among `E`. The two halves are proved together because a computation can only reach
its later steps through results of the earlier ones: in an elimination, that an index is in range
or a divisor is not zero is a property of the matrix reached so far. Loops are handled by an
invariant of the number of the elements already visited (`Ends.foldlM`, `Ends.foldrM`).
-/

namespace ExactLinAlg

/-- The computation gives a result with the property `P`, or fails for a reason among `E`. -/
def Ends {α : Type} (E : Error → Prop) (P : α → Prop) : Except Error α → Prop
  | .ok a => P a
  | .error e => E e

/-- Every failure. -/
abbrev Error.Any (_ : Error) : Prop := True

/-- No failure. -/
abbrev Error.Never (_ : Error) : Prop := False

namespace Ends

variable {α β σ : Type} {E F : Error → Prop} {P Q : α → Prop} {x : Except Error α}

theorem of_ok (h : Ends E P x) {a : α} (hx : x = .ok a) : P a := by
  subst hx
  exact h

theorem of_error (h : Ends E P x) {e : Error} (hx : x = .error e) : E e := by
  subst hx
  exact h

theorem mono (h : Ends E P x) (hE : ∀ e, E e → F e) (hP : ∀ a, P a → Q a) : Ends F Q x := by
  cases x with
  | ok a => exact hP a h
  | error e => exact hE e h

theorem imp (h : Ends E P x) (hP : ∀ a, P a → Q a) : Ends E Q x :=
  h.mono (fun _ he => he) hP

theorem weaken (h : Ends E P x) (hE : ∀ e, E e → F e) : Ends F P x :=
  h.mono hE fun _ ha => ha

/-- What is known of every result may be added. -/
theorem strengthen (h : Ends E P x) (hQ : ∀ a, x = .ok a → P a → Q a) : Ends E Q x := by
  cases x with
  | ok a => exact hQ a rfl h
  | error e => exact h

/-- What every result has, whatever the failures are. -/
theorem of_results (h : ∀ a, x = .ok a → P a) : Ends Error.Any P x := by
  cases x with
  | ok a => exact h a rfl
  | error e => exact True.intro

theorem trivial (x : Except Error α) : Ends Error.Any (fun _ => True) x :=
  of_results fun _ _ => True.intro

/-- A computation with a result does not fail. -/
theorem of_exists (h : Ends E P x) (hx : ∃ a, x = .ok a) : Ends F P x := by
  obtain ⟨a, rfl⟩ := hx
  exact h

/-- A computation that cannot fail gives a result. -/
theorem exists_ok (h : Ends Error.Never P x) : ∃ a, x = .ok a ∧ P a := by
  cases x with
  | ok a => exact ⟨a, rfl, h⟩
  | error e => exact h.elim

theorem exists_eq_ok (h : Ends Error.Never P x) : ∃ a, x = .ok a := by
  obtain ⟨a, ha, -⟩ := h.exists_ok
  exact ⟨a, ha⟩

/-- What a computation ends with, once it is known not to fail. -/
theorem of_never (h : Ends E P x) (hx : Ends Error.Never Q x) : Ends F P x :=
  h.of_exists hx.exists_eq_ok

theorem outcome (x : Except Error α) : Ends (fun e => x = .error e) (fun a => x = .ok a) x := by
  cases x with
  | ok a => rfl
  | error e => rfl

theorem pure {a : α} (h : P a) : Ends E P (Pure.pure a) := h

theorem bind {R : β → Prop} {f : α → Except Error β} (h : Ends E P x)
    (hf : ∀ a, P a → Ends E R (f a)) : Ends E R (x >>= f) := by
  cases x with
  | ok a => exact hf a h
  | error e => exact h

/-! ## Loops -/

theorem mapM {R : α → β → Prop} {f : α → Except Error β} {l : List α}
    (h : ∀ a ∈ l, Ends E (R a) (f a)) : Ends E (List.Forall₂ R l) (l.mapM f) := by
  induction l with
  | nil => exact List.Forall₂.nil
  | cons a l ih =>
    rw [List.mapM_cons]
    refine (h a List.mem_cons_self).bind fun b hb => ?_
    refine (ih fun c hc => h c (List.mem_cons_of_mem a hc)).bind fun bs hbs => ?_
    exact List.Forall₂.cons hb hbs

/-- The results of the elements, or the failure of one of them. -/
theorem mapM_outcomes (f : α → Except Error β) (l : List α) :
    Ends (fun e => ∃ a ∈ l, f a = .error e) (List.Forall₂ (fun a b => f a = .ok b) l)
      (l.mapM f) :=
  mapM fun a ha => (outcome (f a)).weaken fun _ he => ⟨a, ha, he⟩

/-- A loop from the first element on, with an invariant of the number of elements visited. -/
theorem foldlM {f : σ → α → Except Error σ} {l : List α} {I : Nat → σ → Prop} {s : σ}
    (h0 : I 0 s) (step : ∀ i (hi : i < l.length) s, I i s → Ends E (I (i + 1)) (f s l[i])) :
    Ends E (I l.length) (l.foldlM f s) := by
  induction l generalizing I s with
  | nil => exact h0
  | cons a l ih =>
    rw [List.foldlM_cons]
    refine (step 0 (Nat.succ_pos _) s h0).bind fun t ht => ?_
    exact ih (I := fun i => I (i + 1)) ht fun i hi s hs =>
      step (i + 1) (Nat.succ_lt_succ hi) s hs

/-- A loop from the last element on, with an invariant of the number of elements not visited. -/
theorem foldrM {f : α → σ → Except Error σ} {l : List α} {I : Nat → σ → Prop} {s : σ}
    (hl : I l.length s) (step : ∀ i (hi : i < l.length) s, I (i + 1) s → Ends E (I i) (f l[i] s)) :
    Ends E (I 0) (l.foldrM f s) := by
  induction l generalizing I with
  | nil => exact hl
  | cons a l ih =>
    rw [List.foldrM_cons]
    refine (ih (I := fun i => I (i + 1)) hl fun i hi s hs =>
      step (i + 1) (Nat.succ_lt_succ hi) s hs).bind fun t ht => ?_
    exact step 0 (Nat.succ_pos _) t ht

section Range

variable {n : Nat} {I : Nat → σ → Prop} {s : σ}

theorem foldlM_range {f : σ → Nat → Except Error σ} (h0 : I 0 s)
    (step : ∀ i, i < n → ∀ s, I i s → Ends E (I (i + 1)) (f s i)) :
    Ends E (I n) ((List.range n).foldlM f s) := by
  have hrun := foldlM (E := E) (f := f) (l := List.range n) h0 fun i hi s hs => by
    rw [List.length_range] at hi
    rw [List.getElem_range]
    exact step i hi s hs
  rwa [List.length_range] at hrun

/-- A loop from one number up to another one, with an invariant of the next number. -/
theorem foldlM_range' {f : σ → Nat → Except Error σ} {lo hi : Nat} (hle : lo ≤ hi) (h0 : I lo s)
    (step : ∀ i, lo ≤ i → i < hi → ∀ s, I i s → Ends E (I (i + 1)) (f s i)) :
    Ends E (I hi) ((List.range' lo (hi - lo)).foldlM f s) := by
  have hrun := foldlM (E := E) (f := f) (l := List.range' lo (hi - lo))
    (I := fun k => I (lo + k)) h0 fun k hk s hs => by
      rw [List.length_range'] at hk
      rw [List.getElem_range', Nat.one_mul]
      exact step (lo + k) (by omega) (by omega) s hs
  rwa [List.length_range', Nat.add_sub_of_le hle] at hrun

theorem foldrM_range {f : Nat → σ → Except Error σ} (hn : I n s)
    (step : ∀ i, i < n → ∀ s, I (i + 1) s → Ends E (I i) (f i s)) :
    Ends E (I 0) ((List.range n).foldrM f s) := by
  apply foldrM
  · rwa [List.length_range]
  · intro i hi s hs
    rw [List.length_range] at hi
    rw [List.getElem_range]
    exact step i hi s hs

end Range

end Ends

/-! ## Two loops -/

theorem foldlM_congr {α σ : Type} {f g : σ → α → Except Error σ} {l : List α}
    (h : ∀ s, ∀ a ∈ l, f s a = g s a) (s : σ) : l.foldlM f s = l.foldlM g s := by
  induction l generalizing s with
  | nil => rfl
  | cons a l ih =>
    rw [List.foldlM_cons, List.foldlM_cons, h s a List.mem_cons_self]
    exact congrArg _ (funext (ih fun s b hb => h s b (List.mem_cons_of_mem a hb)))

/-! ## Outcomes of traced computations -/

namespace Traced

variable {α β σ : Type}

@[simp] theorem outcome_foldlM (f : σ → α → Traced σ) (l : List α) (s : σ) :
    (l.foldlM f s).outcome = l.foldlM (fun s a => (f s a).outcome) s := by
  induction l generalizing s with
  | nil => rfl
  | cons a l ih => simp only [List.foldlM_cons, outcome_bind, ih]

theorem outcome_bind_eq_ok_iff {x : Traced α} {f : α → Traced β} {b : β} :
    (x >>= f).outcome = .ok b ↔ ∃ a, x.outcome = .ok a ∧ (f a).outcome = .ok b := by
  rw [outcome_bind, bind_eq_ok_iff]

theorem ends_bind {E : Error → Prop} {P : α → Prop} {Q : β → Prop} {x : Traced α}
    {f : α → Traced β} (h : Ends E P x.outcome) (hf : ∀ a, P a → Ends E Q (f a).outcome) :
    Ends E Q (x >>= f).outcome := by
  rw [outcome_bind]
  exact h.bind hf

theorem ends_mapM_option {E : Error → Prop} {R : α → β → Prop} {f : α → Traced β} {o : Option α}
    (h : ∀ a, o = some a → Ends E (R a) (f a).outcome) :
    Ends E (Option.Rel R o) (o.mapM f).outcome := by
  cases o with
  | none => exact Option.Rel.none
  | some a =>
    rw [Option.mapM_some, map_eq_pure_bind]
    apply ends_bind (h a rfl)
    intro b hb
    exact Option.Rel.some hb

theorem ends_foldlM_range {E : Error → Prop} {f : σ → Nat → Traced σ} {n : Nat} {I : Nat → σ → Prop}
    {s : σ} (h0 : I 0 s)
    (step : ∀ i, i < n → ∀ s, I i s → Ends E (I (i + 1)) (f s i).outcome) :
    Ends E (I n) ((List.range n).foldlM f s).outcome := by
  rw [outcome_foldlM]
  exact Ends.foldlM_range h0 step

end Traced

end ExactLinAlg
