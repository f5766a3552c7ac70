import ExactLinAlg.Fraction.Expression
import ExactLinAlg.Proofs.Arithmetic

/-!
# Expressions are exact

Every operation either computes the exact operation on its operands, or overflows, or divides by
zero. By induction over the tree the same holds of every expression (`Expr.ends_eval`). Since a
fraction is determined by its value, expressions that have the same value and can both be evaluated
give the same fraction, whatever their shapes.
-/

namespace ExactLinAlg.Fraction

theorem Unary.ends_run (op : Unary) (a : Fraction) :
    Ends (fun e => e = .overflow ∨ e = .divisionByZero ∧ op = .recip ∧ a.toRat = 0)
      (fun b => op.exact a.toRat = some b.toRat) (op.run a) := by
  cases op with
  | neg => exact congrArg some (toRat_neg a).symm
  | abs => exact congrArg some (toRat_abs a).symm
  | recip =>
    by_cases ha : a.toRat = 0
    · have hnum : a.num = 0 := by
        rw [isZero_iff.1 (toRat_eq_zero_iff.1 ha), num_zero]
      have hrun : Unary.recip.run a = .error .divisionByZero := by
        rw [Unary.run, Fraction.recip, make, dif_pos hnum]
      rw [hrun]
      exact Or.inr ⟨rfl, rfl, ha⟩
    · apply (ends_recip ha).mono
      · intro e he
        exact Or.inl he
      · intro b hb
        rw [Unary.exact, if_neg ha, hb]

theorem Binary.ends_run (op : Binary) (a b : Fraction) :
    Ends (fun e => e = .overflow ∨ e = .divisionByZero ∧ op = .div ∧ b.toRat = 0)
      (fun c => op.exact a.toRat b.toRat = some c.toRat) (op.run a b) := by
  cases op with
  | add => exact (ends_add a b).mono (fun _ => Or.inl) fun c hc => congrArg some hc.symm
  | sub => exact (ends_sub a b).mono (fun _ => Or.inl) fun c hc => congrArg some hc.symm
  | mul => exact (ends_mul a b).mono (fun _ => Or.inl) fun c hc => congrArg some hc.symm
  | div =>
    by_cases hb : b.toRat = 0
    · have hrun : Binary.div.run a b = .error .divisionByZero := by
        rw [Binary.run, Fraction.div, if_pos (toRat_eq_zero_iff.1 hb)]
        rfl
      rw [hrun]
      exact Or.inr ⟨rfl, rfl, hb⟩
    · apply (ends_div hb).mono
      · intro e he
        exact Or.inl he
      · intro c hc
        rw [Binary.exact, if_neg hb, hc]

namespace Expr

/-- An overflow, or a division by zero where some divisor among `ds` has the value zero. -/
def Failure (ds : List Expr) (x : Error) : Prop :=
  x = .overflow ∨ x = .divisionByZero ∧ ∃ d ∈ ds, d.value? = some 0

theorem Failure.mono {ds ds' : List Expr} {x : Error} (hds : ∀ d ∈ ds, d ∈ ds')
    (h : Failure ds x) : Failure ds' x := by
  rcases h with hx | ⟨hx, d, hd, hzero⟩
  · exact Or.inl hx
  · exact Or.inr ⟨hx, d, hds d hd, hzero⟩

/-- Evaluation gives the exact value or fails as described. -/
theorem ends_eval (e : Expr) :
    Ends (Failure e.divisors) (fun r => e.value? = some r.toRat) e.eval := by
  induction e with
  | leaf a => exact rfl
  | unary op e ih =>
    apply (ih.weaken fun _ => Failure.mono fun d hd => mem_divisors_unary op hd).bind
    intro a ha
    apply (op.ends_run a).mono
    · rintro x (hx | ⟨hx, rfl, hzero⟩)
      · exact Or.inl hx
      · exact Or.inr ⟨hx, e, List.mem_cons_self, hzero ▸ ha⟩
    · intro b hb
      rw [value?, ha]
      exact hb
  | binary op l r ihl ihr =>
    apply (ihl.weaken fun _ => Failure.mono fun d hd => mem_divisors_binary op (Or.inl hd)).bind
    intro a ha
    apply (ihr.weaken fun _ => Failure.mono fun d hd => mem_divisors_binary op (Or.inr hd)).bind
    intro b hb
    apply (op.ends_run a b).mono
    · rintro x (hx | ⟨hx, rfl, hzero⟩)
      · exact Or.inl hx
      · exact Or.inr ⟨hx, r, List.mem_cons_self, hzero ▸ hb⟩
    · intro c hc
      rw [value?, ha, hb]
      exact hc

/-- Expressions that can be evaluated have the same value exactly if they give the same fraction. -/
theorem value?_eq_iff {e f : Expr} {r s : Fraction} (hr : e.eval = .ok r) (hs : f.eval = .ok s) :
    e.value? = f.value? ↔ r = s := by
  rw [(ends_eval e).of_ok hr, (ends_eval f).of_ok hs, Option.some_inj]
  exact ⟨toRat_injective, congrArg toRat⟩

/-! ## Laws of arithmetic -/

theorem value?_add_assoc (e f g : Expr) :
    (binary .add (binary .add e f) g).value? = (binary .add e (binary .add f g)).value? := by
  simp only [value?]
  cases e.value? with
  | none => rfl
  | some x =>
    cases f.value? with
    | none => rfl
    | some y =>
      cases g.value? with
      | none => rfl
      | some z => exact congrArg some (Rat.add_assoc x y z)

theorem value?_mul_add (e f g : Expr) :
    (binary .mul e (binary .add f g)).value? =
      (binary .add (binary .mul e f) (binary .mul e g)).value? := by
  simp only [value?]
  cases e.value? with
  | none => rfl
  | some x =>
    cases f.value? with
    | none => rfl
    | some y =>
      cases g.value? with
      | none => rfl
      | some z => exact congrArg some (Rat.mul_add x y z)

/-- A quotient that exists gives back the dividend. -/
theorem value?_of_div_mul {e f : Expr} {q : Rat}
    (h : (binary .mul (binary .div e f) f).value? = some q) : e.value? = some q := by
  simp only [value?] at h
  cases he : e.value? with
  | none =>
    rw [he] at h
    cases h
  | some x =>
    cases hf : f.value? with
    | none =>
      rw [he, hf] at h
      cases h
    | some y =>
      rw [he, hf] at h
      by_cases hy : y = 0
      · simp [Binary.exact, hy] at h
      · simp only [Binary.exact, if_neg hy, Option.bind_eq_bind, Option.bind_some] at h
        rw [Rat.div_mul_cancel hy] at h
        exact h

/-- **Expressions are exact.** What evaluation gives is the exact value of the expression in lowest
terms, so two expressions that can be evaluated have the same value exactly if they give the same
words; the laws of arithmetic hold as far as both sides can be evaluated. Evaluation fails by an
overflow, or by a division by zero if some divisor in the tree has the value zero. -/
theorem eval_exact (e : Expr) :
    (∀ r, e.eval = .ok r → Canonical r.num r.den ∧
      ∃ q, e.value? = some q ∧ r.toRat = q ∧ r.num.toInt = q.num ∧ r.den.toInt = q.den) ∧
    (∀ (f : Expr) (r s : Fraction), e.eval = .ok r → f.eval = .ok s →
      (e.value? = f.value? ↔ r.num = s.num ∧ r.den = s.den)) ∧
    (∀ (f g : Expr) (r s : Fraction), (binary .add (binary .add e f) g).eval = .ok r →
      (binary .add e (binary .add f g)).eval = .ok s → r = s) ∧
    (∀ (f g : Expr) (r s : Fraction), (binary .mul e (binary .add f g)).eval = .ok r →
      (binary .add (binary .mul e f) (binary .mul e g)).eval = .ok s → r = s) ∧
    (∀ (f : Expr) (r s : Fraction), (binary .mul (binary .div e f) f).eval = .ok r →
      e.eval = .ok s → r = s) ∧
    ∀ x, e.eval = .error x →
      x = .overflow ∨ x = .divisionByZero ∧ ∃ d ∈ e.divisors, d.value? = some 0 := by
  refine ⟨?_, ?_, ?_, ?_, ?_, ?_⟩
  · intro r hr
    obtain ⟨hnum, hden⟩ := r.toRat_parts
    exact ⟨r.canonical, r.toRat, (ends_eval e).of_ok hr, rfl, hnum.symm, hden.symm⟩
  · intro f r s hr hs
    rw [value?_eq_iff hr hs]
    constructor
    · rintro rfl
      exact ⟨rfl, rfl⟩
    · rintro ⟨hnum, hden⟩
      exact ext_words hnum hden
  · intro f g r s hr hs
    exact (value?_eq_iff hr hs).1 (value?_add_assoc e f g)
  · intro f g r s hr hs
    exact (value?_eq_iff hr hs).1 (value?_mul_add e f g)
  · intro f r s hr hs
    have hvalue := (ends_eval _).of_ok hr
    exact (value?_eq_iff hr hs).1 (hvalue.trans (value?_of_div_mul hvalue).symm)
  · intro x hx
    exact (ends_eval e).of_error hx

/-- A quotient multiplied by its divisor, and a reciprocal of zero. -/
theorem eval_exact_of_thirds :
    let half : Fraction := ⟨1, 2, by decide, by decide, by decide⟩
    let third : Fraction := ⟨1, 3, by decide, by decide, by decide⟩
    let e := binary .mul (binary .div (leaf half) (leaf third)) (leaf third)
    let f := unary .recip (binary .sub (leaf half) (unary .abs (unary .neg (leaf half))))
    e.eval = .ok half ∧ e.value? = (leaf half).value? ∧
      f.eval = .error .divisionByZero ∧ ∃ d ∈ f.divisors, d.value? = some 0 := by
  intro half third e f
  have he : e.eval = .ok half := by
    decide +kernel
  have hf : f.eval = .error .divisionByZero := by
    decide +kernel
  obtain ⟨-, hsame, -⟩ := eval_exact e
  obtain ⟨-, -, -, -, -, hfails⟩ := eval_exact f
  refine ⟨he, (hsame (leaf half) half half he rfl).2 ⟨rfl, rfl⟩, hf, ?_⟩
  exact ((hfails _ hf).resolve_left (by decide)).2

end Expr

end ExactLinAlg.Fraction
