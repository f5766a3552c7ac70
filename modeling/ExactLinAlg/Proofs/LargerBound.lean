import ExactLinAlg.Proofs.Approximation
import Mathlib

/-!
# Larger bounds on the denominator

Two searches for the convergent nearest to the same number differ only in where they stop: the
convergents under the smaller bound are the first ones under the larger bound
(`Fraction.IsFound.isPrefix`). Denominators never decrease on the way, so a convergent that keeps
to the smaller bound is among them (`Search.Run.mem_takeWhile`), and the first nearest of all is the
first nearest of them as soon as it is one of them (`mem_argmin_of_isPrefix`).
-/

namespace ExactLinAlg

/-- A first minimum of a list is one of every front part that contains it. -/
theorem mem_argmin_of_isPrefix {α β : Type} [LinearOrder β] {f : α → β} {l₁ l₂ : List α} {m : α}
    (hpre : l₁ <+: l₂) (hm : m ∈ l₂.argmin f) (hmem : m ∈ l₁) : m ∈ l₁.argmin f := by
  classical
  obtain ⟨rest, rfl⟩ := hpre
  obtain ⟨-, hle, hfirst⟩ := List.mem_argmin_iff.1 hm
  refine List.mem_argmin_iff.2 ⟨hmem, fun a ha => hle a (List.mem_append_left rest ha), ?_⟩
  intro a ha hfa
  have hidx := hfirst a (List.mem_append_left rest ha) hfa
  rwa [List.idxOf_append_of_mem hmem, List.idxOf_append_of_mem ha] at hidx

/-- What has a property that only goes over to earlier elements is reached while it holds. -/
theorem mem_takeWhile_of_pairwise {α : Type} {p : α → Bool} {l : List α} {a : α}
    (h : l.Pairwise fun b c => p c → p b) (ha : a ∈ l) (hp : p a) : a ∈ l.takeWhile p := by
  induction l with
  | nil => exact ha
  | cons b l ih =>
    obtain ⟨hb, htail⟩ := List.pairwise_cons.1 h
    rcases List.mem_cons.1 ha with rfl | ha
    · rw [List.takeWhile_cons_of_pos hp]
      exact List.mem_cons_self
    · rw [List.takeWhile_cons_of_pos (hb a ha hp)]
      exact List.mem_cons_of_mem b (ih htail ha)

namespace Search

open Convergent

variable {bound bound' : Int64} {x : ℚ} {s t : Search} {rest : ℚ} {c : Convergent}
  {cs : List Convergent}

theorem Run.pairwise_den (h : Run bound x s rest cs t) (hs : Underway s rest) :
    cs.Pairwise fun c d => c.den.toInt ≤ d.den.toInt := by
  have hchain := ((h.isChain hs).imp fun _ _ hcd => hcd.le_den).tail
  have : IsTrans Convergent fun c d => c.den.toInt ≤ d.den.toInt := ⟨fun _ _ _ => le_trans⟩
  exact List.isChain_iff_pairwise.1 hchain

/-- A convergent within a bound is not behind one that exceeds it. -/
theorem Run.mem_takeWhile (h : Run bound x s rest cs t) (hs : Underway s rest) (hc : c ∈ cs)
    (hden : c.den ≤ bound') : c ∈ cs.takeWhile (·.den ≤ bound') := by
  refine mem_takeWhile_of_pairwise ((h.pairwise_den hs).imp ?_) hc (by simpa using hden)
  intro a b hab hb
  simp only [decide_eq_true_eq, Int64.le_iff_toInt_le] at hb ⊢
  exact hab.trans hb

end Search

namespace Fraction

open Convergent

/-- The distance from `|x|` that a search computes for the parts of `|r|`. -/
def distanceTo (x : ℚ) (r : Fraction) : ℚ := distance x.abs ⟨r.abs.num, r.den⟩

namespace IsFound

variable {D₁ D₂ : Int64} {x : ℚ} {cs₁ cs₂ : List Convergent} {t₁ t₂ : Search} {r₁ r₂ : Fraction}

theorem distanceTo_eq (h : IsFound D₁ x cs₁ t₁ r₁) :
    r₁.distanceTo x = distance x.abs t₁.best := by
  rw [distanceTo, h.num_abs, h.den]

variable (h₁ : IsFound D₁ x cs₁ t₁ r₁) (h₂ : IsFound D₂ x cs₂ t₂ r₂) (hle : D₁ ≤ D₂)
include h₁ h₂ hle

theorem isPrefix : cs₁ <+: cs₂ :=
  h₁.run.eq_takeWhile h₂.run hle ▸ List.takeWhile_prefix _

theorem distanceTo_le : r₂.distanceTo x ≤ r₁.distanceTo x := by
  rw [h₁.distanceTo_eq, h₂.distanceTo_eq]
  have hmem := (isPrefix h₁ h₂ hle).subset (List.argmin_mem h₁.best)
  exact List.le_of_mem_argmin hmem h₂.best

theorem eq_of_den_le (hden : r₂.den ≤ D₁) : r₂ = r₁ := by
  have hmem : t₂.best ∈ cs₁ := by
    rw [h₁.run.eq_takeWhile h₂.run hle]
    exact h₂.run.mem_takeWhile (Search.underway_start Rat.abs_nonneg) (List.argmin_mem h₂.best)
      (h₂.den ▸ hden)
  have hbest := mem_argmin_of_isPrefix (isPrefix h₁ h₂ hle) h₂.best hmem
  have heq : t₂.best = t₁.best := Option.mem_unique hbest h₁.best
  refine ext_words ?_ ?_
  · rw [h₁.num, h₂.num, heq]
  · rw [h₁.den, h₂.den, heq]

end IsFound

/-- **Larger bounds.** For a number with a fractional part, the searches under a bound and under a
larger one both give a result: the nearest of the convergents that they generate, and of several
equally near ones the first (`IsFound`). Those under the smaller bound come first under the larger
one too. The result under the larger bound is at most as far from the number, and if its denominator
keeps to the smaller bound, it is the result under the smaller bound. -/
theorem ofBinary64_larger_bound {bits : UInt64} {x : ℚ} {D₁ D₂ : Int64}
    (hbits : Binary64.ofBits bits = .finite x) (hx : ¬ x.isInt) (hD : 1 ≤ D₁) (hle : D₁ ≤ D₂) :
    ∃ r₁ r₂, ofBinary64 (Binary64.ofBits bits) D₁ = .ok r₁ ∧
      ofBinary64 (Binary64.ofBits bits) D₂ = .ok r₂ ∧
      (∃ cs₁ t₁ cs₂ t₂, IsFound D₁ x cs₁ t₁ r₁ ∧ IsFound D₂ x cs₂ t₂ r₂ ∧ cs₁ <+: cs₂) ∧
      r₂.distanceTo x ≤ r₁.distanceTo x ∧ (r₂.den ≤ D₁ → r₂ = r₁) := by
  obtain ⟨r₁, hr₁, cs₁, t₁, h₁⟩ := exists_of_not_isInt hbits hx D₁
  obtain ⟨r₂, hr₂, cs₂, t₂, h₂⟩ := exists_of_not_isInt hbits hx D₂
  rw [Word.max_one hD] at h₁
  rw [Word.max_one (Int64.le_trans hD hle)] at h₂
  rw [hbits]
  exact ⟨r₁, r₂, hr₁, hr₂, ⟨cs₁, t₁, cs₂, t₂, h₁, h₂, h₁.isPrefix h₂ hle⟩,
    h₁.distanceTo_le h₂ hle, h₁.eq_of_den_le h₂ hle⟩

/-- A number next to `0.3`, with the convergents `0/1`, `1/3`, `2/7` and `3/10`, of which the
bound nine leaves out the last. -/
theorem ofBinary64_larger_bound_of_three_tenths :
    let bits : UInt64 := 0x3fd3333333333333
    let x : ℚ := 5404319552844595 / 2 ^ 54
    let a : Fraction := ⟨2, 7, by decide, by decide, by decide⟩
    let b : Fraction := ⟨3, 10, by decide, by decide, by decide⟩
    Binary64.ofBits bits = .finite x ∧ ¬ x.isInt ∧ (1 : Int64) ≤ 9 ∧ (9 : Int64) ≤ 1000000 ∧
      ofBinary64 (Binary64.ofBits bits) 9 = .ok a ∧
      ofBinary64 (Binary64.ofBits bits) 1000000 = .ok b ∧
      (∃ cs₁ t₁ cs₂ t₂, IsFound 9 x cs₁ t₁ a ∧ IsFound 1000000 x cs₂ t₂ b ∧ cs₁ <+: cs₂) ∧
      b.distanceTo x ≤ a.distanceTo x ∧ (1 : Int64) ≤ 10 ∧ (10 : Int64) ≤ 1000000 ∧
      b.den ≤ 10 ∧ ofBinary64 (Binary64.ofBits bits) 10 = .ok b := by
  intro bits x a b
  have hbits : Binary64.ofBits bits = .finite x := by
    decide +kernel
  have hx : ¬ x.isInt := by
    decide +kernel
  have ha : ofBinary64 (Binary64.ofBits bits) 9 = .ok a := by
    decide +kernel
  have hb : ofBinary64 (Binary64.ofBits bits) 1000000 = .ok b := by
    decide +kernel
  have hden : b.den ≤ 10 := by
    decide
  obtain ⟨r₁, r₂, hr₁, hr₂, hfound, hdistance, -⟩ :=
    ofBinary64_larger_bound hbits hx (show (1 : Int64) ≤ 9 by decide)
      (show (9 : Int64) ≤ 1000000 by decide)
  cases Except.ok.inj (hr₁.symm.trans ha)
  cases Except.ok.inj (hr₂.symm.trans hb)
  obtain ⟨r, r', hr, hr', -, -, hsame⟩ :=
    ofBinary64_larger_bound hbits hx (show (1 : Int64) ≤ 10 by decide)
      (show (10 : Int64) ≤ 1000000 by decide)
  cases Except.ok.inj (hr'.symm.trans hb)
  exact ⟨hbits, hx, by decide, by decide, ha, hb, hfound, hdistance, by decide, by decide, hden,
    hsame hden ▸ hr⟩

end Fraction

end ExactLinAlg
