import ExactLinAlg.Proofs.PivotSearch
import ExactLinAlg.Proofs.Tableau

/-!
# Row operations on small numbers

`AtMost b q` bounds both parts of a rational number. A row operation whose operands are at most `b`
does not overflow if `b ^ 3` is below `2 ^ 62`: a product of two of them has parts up to `b ^ 2`,
and its sum with a third is formed over a denominator up to `b ^ 3` (`Fraction.exists_add_mul`).
The steps of elimination follow. For each of them `fits_` adds to what `ends_` says that the step
does not fail, if the entries that it reads and the quotients that it forms from them are small.
-/

namespace ExactLinAlg

/-! ## Numbers with small parts -/

/-- The numerator and the denominator of a rational number are at most `b`. -/
structure AtMost (b : ℕ) (q : ℚ) : Prop where
  num_le : |q.num| ≤ b
  den_le : q.den ≤ b

namespace AtMost

variable {b c : ℕ} {p q : ℚ}

/-- A quotient of integers has no larger parts. -/
theorem of_mul_eq {n d : ℤ} (h : q * d = n) (hd : d ≠ 0) (hn : |n| ≤ b) (hdb : |d| ≤ b) :
    AtMost b q := by
  have hq : q = Rat.divInt n d := by
    rw [Rat.divInt_eq_div, ← h, mul_div_cancel_right₀ q (Int.cast_ne_zero.2 hd)]
  rw [hq]
  constructor
  · rcases eq_or_ne n 0 with rfl | hne
    · rwa [Rat.zero_divInt, Rat.num_zero]
    · exact (Int.le_of_dvd (abs_pos.2 hne) (abs_dvd_abs _ _ |>.2 (Rat.num_dvd n hd))).trans hn
  · have hle := (Int.le_of_dvd (abs_pos.2 hd) ((dvd_abs _ _).2 (Rat.den_dvd n d))).trans hdb
    exact_mod_cast hle

theorem neg (h : AtMost b q) : AtMost b (-q) :=
  ⟨(abs_neg q.num).trans_le h.num_le, h.den_le⟩

theorem abs (h : AtMost b q) : AtMost b |q| := by
  rcases abs_choice q with hq | hq
  · rwa [hq]
  · rw [hq]
    exact h.neg

theorem mul (hp : AtMost b p) (hq : AtMost c q) : AtMost (b * c) (p * q) := by
  apply of_mul_eq (n := p.num * q.num) (d := p.den * q.den)
  · push_cast
    rw [mul_mul_mul_comm, Rat.mul_den_eq_num, Rat.mul_den_eq_num]
  · exact mul_ne_zero (Int.natCast_ne_zero.2 p.den_nz) (Int.natCast_ne_zero.2 q.den_nz)
  · rw [abs_mul, Nat.cast_mul]
    exact mul_le_mul hp.num_le hq.num_le (abs_nonneg _) (Nat.cast_nonneg b)
  · rw [← Nat.cast_mul, Nat.abs_cast]
    exact_mod_cast Nat.mul_le_mul hp.den_le hq.den_le

theorem inv (h : AtMost b q) (hq : q ≠ 0) : AtMost b q⁻¹ := by
  apply of_mul_eq (n := q.den) (d := q.num)
  · rw [Int.cast_natCast, ← Rat.mul_den_eq_num, inv_mul_cancel_left₀ hq]
  · exact Rat.num_ne_zero.2 hq
  · rw [Nat.abs_cast]
    exact_mod_cast h.den_le
  · exact h.num_le

end AtMost

/-! ## Operations on small fractions -/

theorem sq_lt {b : ℕ} (hb : b ^ 3 < 2 ^ 62) : b * b < 2 ^ 63 := by
  rw [← sq]
  rcases Nat.eq_zero_or_pos b with rfl | hpos
  · norm_num
  · have hle := Nat.pow_le_pow_right hpos (show 2 ≤ 3 by decide)
    omega

namespace Fraction

variable {b c : ℕ} {x y f : Fraction}

theorem abs_num_le (h : AtMost b x.toRat) : |x.num.toInt| ≤ b := by
  rw [← x.toRat_parts.1]
  exact h.num_le

theorem abs_den_le (h : AtMost b x.toRat) : |x.den.toInt| ≤ b := by
  rw [← x.toRat_parts.2, Nat.abs_cast]
  exact_mod_cast h.den_le

/-- Both parts of one fraction times both parts of another. -/
theorem abs_mul_parts_le (hx : AtMost b x.toRat) (hy : AtMost c y.toRat) :
    |x.num.toInt * y.num.toInt| ≤ (b * c : ℕ) ∧ |x.num.toInt * y.den.toInt| ≤ (b * c : ℕ) ∧
      |x.den.toInt * y.num.toInt| ≤ (b * c : ℕ) ∧ |x.den.toInt * y.den.toInt| ≤ (b * c : ℕ) := by
  have hle : ∀ {m n : ℤ}, |m| ≤ b → |n| ≤ c → |m * n| ≤ (b * c : ℕ) := by
    intro m n hm hn
    rw [abs_mul, Nat.cast_mul]
    exact mul_le_mul hm hn (abs_nonneg n) (Nat.cast_nonneg b)
  exact ⟨hle (abs_num_le hx) (abs_num_le hy), hle (abs_num_le hx) (abs_den_le hy),
    hle (abs_den_le hx) (abs_num_le hy), hle (abs_den_le hx) (abs_den_le hy)⟩

theorem exists_mul (hbc : b * c < 2 ^ 63) (hx : AtMost b x.toRat) (hy : AtMost c y.toRat) :
    ∃ z, mul x y = .ok z := by
  obtain ⟨hnum, -, -, hden⟩ := abs_mul_parts_le hx hy
  apply (overflowsIff_mul x y).2.2
  rintro (h | h)
  · omega
  · have := h.trans (le_abs_self _)
    omega

theorem exists_div (hbc : b * c < 2 ^ 63) (hx : AtMost b x.toRat) (hy : AtMost c y.toRat)
    (hne : y.toRat ≠ 0) : ∃ z, div x y = .ok z := by
  obtain ⟨-, hnum, hden, -⟩ := abs_mul_parts_le hx hy
  apply (overflowsIff_div (num_toInt_ne_zero hne)).2.2
  rintro (h | h) <;> omega

theorem exists_add (hbc : b * c < 2 ^ 62) (hx : AtMost b x.toRat) (hy : AtMost c y.toRat) :
    ∃ z, add x y = .ok z := by
  obtain ⟨-, hleft, -, hden⟩ := abs_mul_parts_le hx hy
  obtain ⟨-, hright, -, -⟩ := abs_mul_parts_le hy hx
  rw [Nat.mul_comm] at hright
  apply (overflowsIff_add x y).2.2
  apply not_sumOverflows_of_products <;> omega

theorem exists_compare (hbc : b * c < 2 ^ 63) (hx : AtMost b x.toRat) (hy : AtMost c y.toRat) :
    ∃ o, compare x y = .ok o := by
  obtain ⟨-, hleft, -, -⟩ := abs_mul_parts_le hx hy
  obtain ⟨-, hright, -, -⟩ := abs_mul_parts_le hy hx
  rw [Nat.mul_comm] at hright
  have hleft := abs_le.1 hleft
  have hright := abs_le.1 hright
  obtain ⟨left, hl⟩ := (Word.overflowsIff_mul x.num y.den).2.2 (by rw [Word.inRange_iff]; omega)
  obtain ⟨right, hr⟩ := (Word.overflowsIff_mul y.num x.den).2.2 (by rw [Word.inRange_iff]; omega)
  rw [compare, hl, hr]
  exact ⟨_, rfl⟩

/-- The step of a scaled sum. -/
theorem exists_add_mul (hb : b ^ 3 < 2 ^ 62) (hx : AtMost b x.toRat) (hf : AtMost b f.toRat)
    (hy : AtMost b y.toRat) : ∃ z, (do add x (← mul f y)) = .ok z := by
  obtain ⟨p, hp⟩ := exists_mul (sq_lt hb) hf hy
  have hpb : AtMost (b * b) p.toRat := by
    rw [toRat_of_mul hp]
    exact hf.mul hy
  rw [hp]
  exact exists_add (by rwa [← sq, ← pow_succ']) hx hpb

end Fraction

/-! ## Row operations -/

section RowOps

variable {b : ℕ} (hb : b ^ 3 < 2 ^ 62)

theorem Vec.atMost_of_mem {v : Vec} (h : ∀ j, AtMost b (value v j)) {x : Fraction} (hx : x ∈ v) :
    AtMost b x.toRat := by
  obtain ⟨j, hj, rfl⟩ := List.getElem_of_mem hx
  rw [← value_of_lt hj]
  exact h j

include hb

theorem Vec.exists_scale {v : Vec} {f : Fraction} (hf : AtMost b f.toRat)
    (hv : ∀ j, AtMost b (value v j)) : ∃ u, scale v f = .ok u := by
  have hrun : Ends Error.Never (List.Forall₂ (fun _ _ => True) v) (scale v f) := by
    apply Ends.mapM
    intro x hx
    exact (Ends.trivial _).of_exists (Fraction.exists_mul (sq_lt hb) (atMost_of_mem hv hx) hf)
  exact hrun.exists_eq_ok

theorem Vec.exists_addScaled {v w : Vec} {f : Fraction} (hlen : v.length = w.length)
    (hf : AtMost b f.toRat) (hv : ∀ j, AtMost b (value v j)) (hw : ∀ j, AtMost b (value w j)) :
    ∃ u, addScaled v f w = .ok u := by
  have hrun : Ends Error.Never (List.Forall₂ (fun _ _ => True) (v.zip w)) (addScaled v f w) := by
    rw [addScaled, combine, checkDims, if_pos hlen]
    apply Ends.mapM
    intro pair hpair
    obtain ⟨hx, hy⟩ := List.of_mem_zip hpair
    exact (Ends.trivial _).of_exists
      (Fraction.exists_add_mul hb (atMost_of_mem hv hx) hf (atMost_of_mem hw hy))
  exact hrun.exists_eq_ok

/-- The numbers that a row operation reads are at most `b`. -/
def RowOp.Within (b : ℕ) (A : ℕ → ℕ → ℚ) : RowOp → Prop
  | swap _ _ => True
  | scale f i => AtMost b f.toRat ∧ ∀ j, AtMost b (A i j)
  | addScaled f source target =>
    AtMost b f.toRat ∧ (∀ j, AtMost b (A source j)) ∧ ∀ j, AtMost b (A target j)

theorem RowOp.exists_apply {op : RowOp} {m : Mat} (hm : m.WellFormed) (h : op.InRange m.rows)
    (hsmall : op.Within b m.value) : ∃ n, op.apply m = .ok n := by
  have hrun : Ends Error.Never (fun _ => True) (op.apply m) := by
    cases op with
    | swap i j =>
      apply (hm.ends_line h.1).bind
      intro upper _
      apply (hm.ends_line h.2).bind
      intro lower _
      exact trivial
    | scale f i =>
      obtain ⟨hf, hrow⟩ := hsmall
      apply (hm.ends_line h).bind
      rintro row ⟨-, hvalue⟩
      rw [← hvalue] at hrow
      apply ((Ends.trivial _).of_exists (Vec.exists_scale hb hf hrow)).bind
      intro _ _
      exact trivial
    | addScaled f source target =>
      obtain ⟨hf, hsource, htarget⟩ := hsmall
      apply (hm.ends_line h.1).bind
      rintro added ⟨haddedLen, hadded⟩
      apply (hm.ends_line h.2).bind
      rintro row ⟨hrowLen, hrow⟩
      rw [← hadded] at hsource
      rw [← hrow] at htarget
      have hsum := Vec.exists_addScaled hb (hrowLen.trans haddedLen.symm) hf htarget hsource
      apply ((Ends.trivial _).of_exists hsum).bind
      intro _ _
      exact trivial
  exact hrun.exists_eq_ok

end RowOps

/-! ## Steps of elimination -/

section Steps

variable {b : ℕ} (hb : b ^ 3 < 2 ^ 62)
include hb

namespace Mat

variable {m : Mat} (hm : m.WellFormed) {col top : ℕ} (hcol : col < m.cols)
include hm hcol

/-- Both sides of each comparison are small. -/
theorem fits_selectPivot (hsmall : ∀ i, top ≤ i → AtMost b (m.value i col)) :
    Ends Error.Never (m.IsPivot col top) (m.selectPivot col top).outcome := by
  apply (ends_selectPivot hm hcol top).of_exists
  apply (overflowsIff_selectPivot hm hcol top).2.2
  rintro ⟨i, x, y, hxy, hfail⟩
  obtain ⟨j, hj, hvalue⟩ := hxy.isGreatest.1
  have hx : AtMost b x.toRat := hxy.value_eq ▸ (hsmall i hxy.top_lt.le).abs
  have hy : AtMost b y.toRat := hvalue ▸ (hsmall j hj.1).abs
  obtain ⟨order, horder⟩ := Fraction.exists_compare (sq_lt hb) hx hy
  exact hfail (Fraction.compare_eq_ok_iff.1 horder).1

end Mat

namespace Tableau

variable {r : ℕ} {t : Tableau} (ht : t.WellFormed r) (hnone : t.companion = none)
include ht hnone

/-- A row operation on a matrix without a companion. -/
theorem fits_apply {op : RowOp} (h : op.InRange r) (hsmall : op.Within b t.main.value) :
    Ends Error.Never (fun u => Follows r op.factor t u ∧ u.main.value = op.act t.main.value)
      (t.apply op).outcome := by
  obtain ⟨n, hn⟩ := RowOp.exists_apply hb ht.main (ht.rows.symm ▸ h) hsmall
  apply (ends_apply h ht).of_exists
  obtain ⟨m, _⟩ := t
  cases hnone
  rw [outcome_apply_none, hn]
  exact ⟨⟨n, none⟩, rfl⟩

variable {col row : ℕ} (hcol : col < t.main.cols)
include hcol

theorem fits_fetchPivot (hsmall : ∀ i, row ≤ i → AtMost b (t.main.value i col)) :
    Ends Error.Never (IsFetchedFrom r col row t) (t.fetchPivot col row).outcome := by
  apply ends_fetchPivot_of ht
  · exact Mat.fits_selectPivot hb ht.main hcol hsmall
  · intro p hle hlt
    exact fits_apply hb ht hnone ⟨hle.trans_lt hlt, hlt⟩ trivial

variable (hne : t.main.value row col ≠ 0)
include hne

theorem fits_normalizeRow (hsmall : ∀ j, AtMost b (t.main.value row j)) :
    Ends Error.Never (fun u => Follows r (t.main.value row col)⁻¹ t u ∧ u.main.value =
        Function.update t.main.value row ((t.main.value row col)⁻¹ • t.main.value row))
      (t.normalizeRow col row).outcome := by
  have hrow := row_lt_of_pivot ht hne
  have hrun : Ends Error.Never (fun _ => True) (t.normalizeRow col row).outcome := by
    apply Traced.ends_bind (ht.main.ends_entry (ht.rows.symm ▸ hrow) hcol)
    intro x hx
    have hx0 : x.toRat ≠ 0 := hx ▸ hne
    apply Traced.ends_bind ((Fraction.ends_recip hx0).of_exists (Fraction.exists_recip hx0))
    intro y hy
    have hyb : AtMost b y.toRat := by
      rw [hy, hx]
      exact (hsmall col).inv hne
    have hrange : (RowOp.scale y row).InRange r := hrow
    exact (fits_apply hb ht hnone hrange ⟨hyb, hsmall⟩).imp fun _ _ => trivial
  exact (ends_normalizeRow ht hcol row hne).of_never hrun

/-- The numbers that are read when row `i` is cleared by row `row` are at most `b`. -/
structure ClearsWithin (b : ℕ) (A : ℕ → ℕ → ℚ) (col row i : ℕ) : Prop where
  target : ∀ j, AtMost b (A i j)
  source : ∀ j, AtMost b (A row j)
  quotient : AtMost b (A i col / A row col)

variable {multiple : Fraction → Except Error Fraction}
  (hmult : Cancels (t.main.value row col) multiple)
  (hfits : ∀ e : Fraction, AtMost b e.toRat → ∃ f, multiple e = .ok f)
include hmult hfits

theorem fits_clearEntry {i : ℕ} (hi : i < r) (hir : i ≠ row)
    (hsmall : ClearsWithin b t.main.value col row i) :
    Ends Error.Never
      (fun u => Follows r 1 t u ∧ Clears t.main.value u.main.value col row (· = i))
      (clearEntry multiple col row t i).outcome := by
  have hrun : Ends Error.Never (fun _ => True) (clearEntry multiple col row t i).outcome := by
    apply Traced.ends_bind (ht.main.ends_entry (ht.rows.symm ▸ hi) hcol)
    intro x hx
    by_cases hz : x.isZero = true
    · rw [if_pos hz]
      exact trivial
    · rw [if_neg hz]
      have hxb : AtMost b x.toRat := hx ▸ hsmall.target col
      apply Traced.ends_bind ((hmult x).of_exists (hfits x hxb))
      intro f hf
      have hfb : AtMost b f.toRat := by
        rw [hf, hx]
        exact hsmall.quotient.neg
      have hrange : (RowOp.addScaled f row i).InRange r := ⟨row_lt_of_pivot ht hne, hi⟩
      exact (fits_apply hb ht hnone hrange ⟨hfb, hsmall.source, hsmall.target⟩).imp
        fun _ _ => trivial
  exact (ends_clearEntry ht hcol hne hmult hi hir).of_never hrun

/-- Clearing a row leaves the numbers that are read for the others. -/
theorem exists_clear (l : List ℕ) (hl : l.Nodup) (hlr : ∀ i ∈ l, i < r ∧ i ≠ row)
    (hsmall : ∀ i ∈ l, ClearsWithin b t.main.value col row i) :
    ∃ u, (l.foldlM (clearEntry multiple col row) t).outcome = .ok u := by
  induction l generalizing t with
  | nil => exact ⟨t, rfl⟩
  | cons a l ih =>
    obtain ⟨hal, hl⟩ := List.nodup_cons.1 hl
    obtain ⟨har, ha⟩ := hlr a List.mem_cons_self
    have hstep := fits_clearEntry hb ht hnone hcol hne hmult hfits har ha
      (hsmall a List.mem_cons_self)
    obtain ⟨u, hu, hfollows, hclear⟩ := hstep.exists_ok
    -- the rows that are still to be cleared are those at the start, as no row occurs twice
    have hrow : u.main.value row = t.main.value row := hclear.other row (Ne.symm ha)
    have hrest : ∀ i ∈ l, ClearsWithin b u.main.value col row i := by
      intro i hi
      obtain ⟨htarget, hsource, hquotient⟩ := hsmall i (List.mem_cons_of_mem a hi)
      have hrowi := hclear.other i (fun h => hal (h ▸ hi))
      exact ⟨hrowi ▸ htarget, hrow ▸ hsource, hrowi ▸ hrow ▸ hquotient⟩
    obtain ⟨v, hv⟩ := ih hfollows.wellFormed (hfollows.companion_eq_none hnone)
      (hfollows.cols ▸ hcol) (hrow ▸ hne) (hrow ▸ hmult) hl
      (fun i hi => hlr i (List.mem_cons_of_mem a hi)) hrest
    refine ⟨v, ?_⟩
    rw [List.foldlM_cons]
    exact Traced.outcome_bind_eq_ok_iff.2 ⟨u, hu, hv⟩

theorem fits_clearBelow (hsmall : ∀ i, row < i → ClearsWithin b t.main.value col row i) :
    Ends Error.Never
      (fun u => Follows r 1 t u ∧ Clears t.main.value u.main.value col row (row < ·))
      (t.clearBelow multiple col row).outcome := by
  apply (ends_clearBelow ht hcol hne hmult).of_exists
  have hmem : ∀ i ∈ List.range' (row + 1) (t.main.rows - (row + 1)), row < i ∧ i < r := by
    intro i hi
    rw [List.mem_range'_1, ht.rows] at hi
    omega
  exact exists_clear hb ht hnone hcol hne hmult hfits _ List.nodup_range'
    (fun i hi => ⟨(hmem i hi).2, ne_of_gt (hmem i hi).1⟩) fun i hi => hsmall i (hmem i hi).1

end Tableau

end Steps

end ExactLinAlg
