import ExactLinAlg.Fraction.Search
import ExactLinAlg.Proofs.Arithmetic
import Mathlib

/-!
# Searches for the nearest convergent

A search ends (`Search.run_upTo`), after so few rounds that a Fibonacci number bounds them
(`Search.Run.fib_le`): from the second convergent on, each denominator is at least the sum of the
two before it. The same step keeps the cross products of two successive convergents one apart, with
the sign changing from round to round, so every convergent is in lowest terms
(`Search.Run.isChain`). A search under a larger bound generates the same convergents first
(`Search.Run.eq_takeWhile`), and what a search ends with is the first of the nearest convergents
that it has generated (`Search.Run.best_mem_argmin`).
-/

namespace ExactLinAlg

namespace Convergent

/-- The cross products of two convergents differ by one. -/
def Adjacent (c d : Convergent) : Prop :=
  d.num.toInt * c.den.toInt - c.num.toInt * d.den.toInt = 1 ∨
    d.num.toInt * c.den.toInt - c.num.toInt * d.den.toInt = -1

instance (c d : Convergent) : Decidable (Adjacent c d) :=
  inferInstanceAs (Decidable (_ ∨ _))

theorem Adjacent.coprime {c d : Convergent} (h : Adjacent c d) :
    d.num.toInt.natAbs.Coprime d.den.toInt.natAbs := by
  rw [← Int.isCoprime_iff_nat_coprime]
  rcases h with h | h
  · exact ⟨c.den.toInt, -c.num.toInt, by linear_combination h⟩
  · exact ⟨-c.den.toInt, c.num.toInt, by linear_combination -h⟩

/-- A search under `bound` can generate `d` right after `c`. -/
structure Precedes (bound : Int64) (c d : Convergent) : Prop where
  adjacent : Adjacent c d
  num_nonneg : 0 ≤ d.num.toInt
  den_pos : 0 < d.den.toInt
  le_den : c.den.toInt ≤ d.den.toInt
  den_le : d.den ≤ bound

/-- A numerator that is not negative has an opposite. -/
theorem Precedes.num_ne_min {bound : Int64} {c d : Convergent} (h : Precedes bound c d) :
    d.num ≠ Int64.minValue := by
  intro hmin
  have hnonneg := h.num_nonneg
  rw [hmin] at hnonneg
  exact absurd hnonneg (by decide)

theorem toInt_next {prev last c : Convergent} {rest : ℚ} (h : next prev last rest = .ok c) :
    c.num.toInt = prev.num.toInt + rest.floor * last.num.toInt ∧
      c.den.toInt = prev.den.toInt + rest.floor * last.den.toInt := by
  obtain ⟨term, hterm, h⟩ := bind_eq_ok_iff.1 h
  rw [← Word.ofInt_eq_ok_iff.1 hterm]
  exact toInt_append h

/-- The new term cancels, which leaves the same cross products with the opposite sign. -/
theorem Adjacent.next {prev last c : Convergent} {rest : ℚ} (h : Adjacent prev last)
    (hc : Convergent.next prev last rest = .ok c) : Adjacent last c := by
  obtain ⟨hnum, hden⟩ := toInt_next hc
  unfold Adjacent
  rw [hnum, hden]
  rcases h with h | h
  · exact Or.inr (by linear_combination -h)
  · exact Or.inl (by linear_combination -h)

end Convergent

namespace Search

open Convergent

variable {bound : Int64} {x rest : ℚ} {s t : Search} {c : Convergent} {cs : List Convergent}

/-! ## One round -/

theorem next?_eq_some_iff :
    s.next? bound rest = some c ↔ Convergent.next s.prev s.last rest = .ok c ∧ c.den ≤ bound := by
  unfold next?
  split
  · next d hd =>
    rw [hd, Option.ite_none_right_eq_some, Except.ok.injEq, Option.some.injEq]
    constructor
    · rintro ⟨hle, rfl⟩
      exact ⟨rfl, hle⟩
    · rintro ⟨rfl, hle⟩
      exact ⟨hle, rfl⟩
  · next e he =>
    rw [he]
    exact iff_of_false nofun nofun

/-- A larger bound allows what a smaller one does. -/
theorem next?_of_le {bound' : Int64} (h : s.next? bound rest = some c) (hle : bound ≤ bound') :
    s.next? bound' rest = some c := by
  obtain ⟨hc, hden⟩ := next?_eq_some_iff.1 h
  exact next?_eq_some_iff.2 ⟨hc, Int64.le_trans hden hle⟩

/-- What a larger bound allows beyond a smaller one exceeds it. -/
theorem not_den_le_of_next? {bound' : Int64} (hnone : s.next? bound rest = none)
    (h : s.next? bound' rest = some c) : ¬ c.den ≤ bound := by
  intro hden
  cases hnone.symm.trans (next?_eq_some_iff.2 ⟨(next?_eq_some_iff.1 h).1, hden⟩)

@[simp] theorem prev_visit (x : ℚ) (s : Search) (c : Convergent) : (s.visit x c).prev = s.last := by
  unfold visit
  dsimp only
  split <;> rfl

@[simp] theorem last_visit (x : ℚ) (s : Search) (c : Convergent) : (s.visit x c).last = c := by
  unfold visit
  dsimp only
  split <;> rfl

/-- What holds between two rounds of a search where `rest` is still to be expanded. -/
structure Underway (s : Search) (rest : ℚ) : Prop where
  adjacent : s.prev.Adjacent s.last
  prev_num : 0 ≤ s.prev.num.toInt
  last_num : 0 ≤ s.last.num.toInt
  prev_den : 0 ≤ s.prev.den.toInt
  last_den : 0 ≤ s.last.den.toInt
  den_pos : 0 < s.prev.den.toInt + s.last.den.toInt
  rest_nonneg : 0 ≤ rest
  -- The first term can be zero, but it is multiplied by zero.
  grows : s.last.den.toInt ≤ rest.floor * s.last.den.toInt

theorem underway_start (hx : 0 ≤ x) : Underway start x where
  adjacent := by decide
  prev_num := by decide
  last_num := by decide
  prev_den := by decide
  last_den := by decide
  den_pos := by decide
  rest_nonneg := hx
  grows := by
    show (0 : Int64).toInt ≤ x.floor * (0 : Int64).toInt
    rw [Int64.toInt_zero, mul_zero]

namespace Underway

variable (h : Underway s rest) (hnext : s.next? bound rest = some c)
include h hnext

theorem den_add_den_le : s.prev.den.toInt + s.last.den.toInt ≤ c.den.toInt := by
  rw [(toInt_next (next?_eq_some_iff.1 hnext).1).2]
  exact add_le_add_right h.grows _

theorem precedes : s.last.Precedes bound c := by
  obtain ⟨hc, hle⟩ := next?_eq_some_iff.1 hnext
  have hfloor : 0 ≤ rest.floor := Rat.le_floor_iff.2 h.rest_nonneg
  have hden := h.den_add_den_le hnext
  refine ⟨h.adjacent.next hc, ?_, h.den_pos.trans_le hden, ?_, hle⟩
  · rw [(toInt_next hc).1]
    exact add_nonneg h.prev_num (mul_nonneg hfloor h.last_num)
  · exact (le_add_of_nonneg_left h.prev_den).trans hden

theorem visit (x : ℚ) (hfract : fract rest ≠ 0) :
    Underway (s.visit x c) (reciprocal (fract rest)) := by
  have hc := h.precedes hnext
  have hrest := one_le_reciprocal_fract hfract
  have hfloor : 1 ≤ (reciprocal (fract rest)).floor := by
    rw [Rat.le_floor_iff, Int.cast_one]
    exact hrest
  constructor
  case rest_nonneg => exact zero_le_one.trans hrest
  all_goals simp only [prev_visit, last_visit]
  · exact hc.adjacent
  · exact h.last_num
  · exact hc.num_nonneg
  · exact h.last_den
  · exact hc.den_pos.le
  · exact add_pos_of_nonneg_of_pos h.last_den hc.den_pos
  · exact le_mul_of_one_le_left hc.den_pos.le hfloor

end Underway

/-! ## Whole searches -/

namespace Run

theorem isChain (h : Run bound x s rest cs t) (hs : Underway s rest) :
    (s.last :: cs).IsChain (Precedes bound) := by
  induction h with
  | stop => exact List.isChain_singleton _
  | finish hnext => exact (List.isChain_singleton _).cons_cons (hs.precedes hnext)
  | round hnext hfract _ ih =>
    have htail := ih (hs.visit hnext x hfract)
    rw [last_visit] at htail
    exact htail.cons_cons (hs.precedes hnext)

/-- The denominators grow at least as fast as the Fibonacci numbers. -/
theorem fib_le (h : Run bound x s rest cs t) (hs : Underway s rest) (hbound : s.last.den ≤ bound)
    {k : ℕ} (hlast : (k.fib : ℤ) ≤ s.last.den.toInt)
    (hsum : ((k + 1).fib : ℤ) ≤ s.prev.den.toInt + s.last.den.toInt) :
    ((k + cs.length).fib : ℤ) ≤ bound.toInt := by
  induction h generalizing k with
  | stop => exact hlast.trans (Int64.le_iff_toInt_le.1 hbound)
  | finish hnext =>
    have hc := hs.precedes hnext
    exact (hsum.trans (hs.den_add_den_le hnext)).trans (Int64.le_iff_toInt_le.1 hc.den_le)
  | round hnext hfract _ ih =>
    have hc := hs.precedes hnext
    have hden := hsum.trans (hs.den_add_den_le hnext)
    have hfib : ((k + 1 + 1).fib : ℤ) = k.fib + (k + 1).fib := by
      rw [Nat.fib_add_two, Nat.cast_add]
    have hrun := @ih (hs.visit hnext x hfract) (by rw [last_visit]; exact hc.den_le) (k + 1)
      (by rw [last_visit]; exact hden)
      (by rw [last_visit, prev_visit, hfib]; exact add_le_add hlast hden)
    rwa [List.length_cons, Nat.add_comm _ 1, ← Nat.add_assoc]

/-- A search with a smaller bound stops at the first convergent that exceeds it, and does the same
before. -/
theorem eq_takeWhile {bound' : Int64} {cs' : List Convergent} {t' : Search}
    (h : Run bound x s rest cs t) (h' : Run bound' x s rest cs' t') (hle : bound ≤ bound') :
    cs = cs'.takeWhile (·.den ≤ bound) := by
  induction h generalizing cs' with
  | stop hnone =>
    cases h' with
    | stop => rfl
    | finish hnext =>
      rw [List.takeWhile_cons_of_neg (by simpa using not_den_le_of_next? hnone hnext)]
    | round hnext =>
      rw [List.takeWhile_cons_of_neg (by simpa using not_den_le_of_next? hnone hnext)]
  | finish hnext hfract =>
    have hnext' := next?_of_le hnext hle
    have hden := (next?_eq_some_iff.1 hnext).2
    cases h' with
    | stop hnone => cases hnone.symm.trans hnext'
    | finish hnext'' =>
      cases hnext''.symm.trans hnext'
      rw [List.takeWhile_cons_of_pos (by simpa using hden), List.takeWhile_nil]
    | round _ hfract' => exact absurd hfract hfract'
  | round hnext hfract _ ih =>
    have hnext' := next?_of_le hnext hle
    have hden := (next?_eq_some_iff.1 hnext).2
    cases h' with
    | stop hnone => cases hnone.symm.trans hnext'
    | finish _ hfract' => exact absurd hfract' hfract
    | round hnext'' _ hrun =>
      cases hnext''.symm.trans hnext'
      rw [List.takeWhile_cons_of_pos (by simpa using hden), ih hrun]

end Run

/-! ## The nearest convergent -/

/-- The search keeps the first of the nearest convergents that it has seen. -/
structure Keeps (x : ℚ) (seen : List Convergent) (s : Search) : Prop where
  best : ∀ c ∈ seen.argmin (distance x), s.best = c
  least : s.least = (seen.argmin (distance x)).map (distance x)

theorem visit_of_nearer (h : s.least.all (distance x c < ·)) :
    s.visit x c = ⟨s.last, c, c, some (distance x c)⟩ :=
  if_pos h

theorem visit_of_not_nearer (h : ¬ s.least.all (distance x c < ·)) :
    s.visit x c = ⟨s.last, c, s.best, s.least⟩ :=
  if_neg h

theorem keeps_start (x : ℚ) : Keeps x [] start where
  best := nofun
  least := rfl

theorem Keeps.visit {seen : List Convergent} (h : Keeps x seen s) (c : Convergent) :
    Keeps x (seen ++ [c]) (s.visit x c) := by
  have hleast := h.least
  cases hmin : seen.argmin (distance x) with
  | none =>
    rw [hmin, Option.map_none] at hleast
    rw [visit_of_nearer (by rw [hleast]; rfl)]
    constructor <;> rw [List.argmin_concat, hmin]
    · rintro _ ⟨⟩
      rfl
    · rfl
  | some b =>
    rw [hmin, Option.map_some] at hleast
    have hbest := h.best b hmin
    by_cases hlt : distance x c < distance x b
    · rw [visit_of_nearer (by simpa [hleast] using hlt)]
      constructor <;> simp only [List.argmin_concat, hmin, if_pos hlt]
      · rintro _ ⟨⟩
        rfl
      · rfl
    · rw [visit_of_not_nearer (by simpa [hleast] using hlt)]
      constructor <;> simp only [List.argmin_concat, hmin, if_neg hlt]
      · rintro _ ⟨⟩
        exact hbest
      · exact hleast

theorem Run.keeps {seen : List Convergent} (h : Run bound x s rest cs t) (hs : Keeps x seen s) :
    Keeps x (seen ++ cs) t := by
  induction h generalizing seen with
  | stop => rwa [List.append_nil]
  | finish => exact hs.visit _
  | round _ _ _ ih =>
    have htail := ih (hs.visit _)
    rwa [List.append_assoc, List.singleton_append] at htail

theorem Run.best_mem_argmin (h : Run bound x start rest cs t) (hcs : cs ≠ []) :
    t.best ∈ cs.argmin (distance x) := by
  cases hmin : cs.argmin (distance x) with
  | none => exact absurd (List.argmin_eq_none.1 hmin) hcs
  | some c => rw [(h.keeps (keeps_start x)).best c hmin]; rfl

theorem argmin_cons_eq_foldl (x : ℚ) (c : Convergent) (cs : List Convergent) :
    (c :: cs).argmin (distance x) = some (cs.foldl (nearer x) c) := by
  induction cs using List.reverseRecOn with
  | nil => rfl
  | append_singleton cs d ih =>
    rw [← List.cons_append, List.argmin_concat, ih, List.foldl_append]
    exact (apply_ite some _ _ _).symm

/-! ## The convergents of a number -/

theorem run_after {prev last : Convergent} {hrest : 1 ≤ rest} {hprev : 0 ≤ prev.den.toInt}
    {hlast : 0 < last.den.toInt} (hs : s.prev = prev) (hs' : s.last = last) :
    ∃ t, Run bound x s rest (after bound prev last rest hrest hprev hlast) t := by
  fun_induction after bound prev last rest hrest hprev hlast generalizing s with
  | case1 prev last rest _ _ _ e herror =>
    have hnone : s.next? bound rest = none := by
      rw [next?, hs, hs', herror]
    exact ⟨s, .stop hnone⟩
  | case2 prev last rest _ _ _ c hc hle ih =>
    have hnext : s.next? bound rest = some c := by
      rw [next?_eq_some_iff, hs, hs']
      exact ⟨hc, hle⟩
    split
    · next hfract => exact ⟨s.visit x c, .finish hnext hfract⟩
    · next hfract =>
      obtain ⟨t, hrun⟩ := ih hfract ((prev_visit x s c).trans hs') (last_visit x s c)
      exact ⟨t, .round hnext hfract hrun⟩
  | case3 prev last rest _ _ _ c hc hle =>
    have hnone : s.next? bound rest = none := by
      rw [next?, hs, hs', hc]
      exact if_neg hle
    exact ⟨s, .stop hnone⟩

theorem next?_start {term : Int64} (hterm : Word.ofInt x.floor = .ok term)
    (hbound : 1 ≤ bound) : start.next? bound x = some ⟨term, 1⟩ := by
  rw [next?_eq_some_iff]
  refine ⟨?_, hbound⟩
  have hnum : Word.add 0 term = .ok term := Word.add_eq_ok_iff.2 (zero_add term.toInt).symm
  rw [start, Convergent.next, hterm]
  show append _ _ term = _
  rw [append, Word.mul_one]
  show (Word.add 0 term >>= fun num => _) = _
  rw [hnum, Word.mul_zero]
  rfl

/-- **A search ends**, and generates the convergents of its number. -/
theorem run_upTo (x : ℚ) (hbound : 1 ≤ bound) : ∃ t, Run bound x start x (upTo bound x) t := by
  unfold upTo
  split
  · next e herror =>
    have hnone : start.next? bound x = none := by
      rw [next?, Convergent.next, herror]
      rfl
    exact ⟨start, .stop hnone⟩
  · next term hterm =>
    have hnext := next?_start hterm hbound
    split
    · next hfract => exact ⟨_, .finish hnext hfract⟩
    · next hfract =>
      obtain ⟨t, hrun⟩ := run_after (prev_visit x start ⟨term, 1⟩) (last_visit x start ⟨term, 1⟩)
      exact ⟨t, .round hnext hfract hrun⟩

theorem Run.eq_upTo (h : Run bound x start x cs t) (hbound : 1 ≤ bound) : cs = upTo bound x := by
  obtain ⟨t', h'⟩ := run_upTo x hbound
  have hshorter := h.eq_takeWhile h' (Int64.le_refl bound)
  have hlonger := h'.eq_takeWhile h (Int64.le_refl bound)
  have hfront : cs <+: upTo bound x := hshorter ▸ List.takeWhile_prefix _
  have hback : upTo bound x <+: cs := hlonger ▸ List.takeWhile_prefix _
  exact hfront.eq_of_length_le hback.length_le

/-- A search ends with the nearest convergent. -/
theorem Run.best_eq_nearest (h : Run bound x start x cs t) (hbound : 1 ≤ bound) :
    t.best = nearest bound x := by
  have hcs := h.eq_upTo hbound
  unfold nearest
  rw [← hcs]
  cases cs with
  | nil =>
    cases h
    rfl
  | cons c cs =>
    have hbest := h.best_mem_argmin (List.cons_ne_nil c cs)
    rw [argmin_cons_eq_foldl] at hbest
    exact (Option.some.inj hbest).symm

end Search

end ExactLinAlg
