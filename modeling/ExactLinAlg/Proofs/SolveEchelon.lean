import ExactLinAlg.Proofs.Augmented
import ExactLinAlg.Proofs.Solve

/-!
# A solved system has a pivot in every column

The elimination of unknowns is written as a loop of its own, without a count of the pivots, which
gives up at the first column that has none. As long as it goes on it does what the forward pass does
(`reduceUnknowns_mirrors`), on the coefficients with the right-hand side to the right of them. The
forward pass on the coefficients alone does less (`bare_simulation`), so it ends as well.

The upward pass and back-substitution compute the unknowns by different sums, and the first can
overflow where the second does not. Where it ends, both results solve the same regular system, so
they are equal.
-/

namespace ExactLinAlg

open Matrix

namespace Tableau

/-- The tableau without its companion. -/
def bare (t : Tableau) : Tableau := ⟨t.main, none⟩

/-- A companion can make an operation fail, and nothing else. -/
theorem bare_simulation (c : ℕ) : Simulation Error.Any c (fun t u => u = t.bare) where
  rows := by
    rintro t _ rfl
    rfl
  entry := by
    rintro t _ rfl i j -
    rfl
  apply := by
    rintro ⟨m, companion⟩ _ rfl op
    cases h : (apply ⟨m, companion⟩ op).outcome with
    | error e => exact Or.inl trivial
    | ok u =>
      obtain ⟨n, hn, h⟩ := Traced.outcome_bind_eq_ok_iff.1 h
      obtain ⟨l, -, ⟨⟩⟩ := Traced.outcome_bind_eq_ok_iff.1 h
      refine ⟨⟨n, none⟩, ?_, rfl⟩
      show (apply ⟨m, none⟩ op).outcome = _
      rw [outcome_apply_none, show op.apply m = .ok n from hn]
      rfl

/-- The elimination of unknowns is the forward pass, as long as every column has a pivot. -/
theorem reduceUnknowns_mirrors (t : Tableau) (n : ℕ) :
    Mirrors (· = .singular) (fun u s => s = (u, List.range n))
      ((List.range n).foldlM reduceUnknown t).outcome
      ((List.range n).foldlM advance (t, [])).outcome := by
  rw [Traced.outcome_foldlM, Traced.outcome_foldlM]
  -- with a pivot in every column so far, the next row is the number of the next column
  apply Mirrors.foldlM_range (R := fun k u s => s = (u, List.range k)) rfl
  rintro k - u _ rfl
  have hlen : (List.range k).length = k := List.length_range
  apply Traced.mirrors_bind_of_eq
  · rw [hlen]
  · intro o
    cases o with
    | none => exact Or.inl rfl
    | some v => exact ⟨_, rfl, congrArg (Prod.mk v) List.range_succ.symm⟩

end Tableau

namespace Mat

theorem toMatrix_ofColumn (v : Vec) (r : ℕ) :
    (ofColumn v).toMatrix r 1 = replicateCol (Fin 1) (v.toVector r) := by
  ext i j
  obtain rfl := Subsingleton.elim j 0
  exact value_ofColumn v i

/-- A solution begins with the elimination of the unknowns, the right-hand side being one more
column. -/
theorem reduceUnknowns_of_solve {m : Mat} {b x : Vec} (h : (m.solve b).outcome = .ok x) :
    ∃ t, ((List.range m.rows).foldlM Tableau.reduceUnknown ⟨m.beside (ofColumn b), none⟩).outcome =
      .ok t := by
  obtain ⟨_, -, h⟩ := Traced.outcome_bind_eq_ok_iff.1 h
  obtain ⟨_, -, h⟩ := Traced.outcome_bind_eq_ok_iff.1 h
  obtain ⟨p, hp, h⟩ := Traced.outcome_bind_eq_ok_iff.1 h
  obtain ⟨t, ht, -⟩ := Traced.outcome_bind_eq_ok_iff.1 h
  obtain ⟨-, rfl⟩ := hstack_eq_ok_iff.1 hp
  exact ⟨t, ht⟩

variable {m : Mat} {n : ℕ} (hm : m.WellFormed) (hrows : m.rows = n) (hcols : m.cols = n)
  {b x : Vec} (hb : b.length = n) (hx : (m.solve b).outcome = .ok x)
include hm hrows hcols hb hx

/-- The forward pass on the coefficients and the right-hand side. -/
theorem forward_of_solve :
    ∃ t, (Tableau.forward ⟨m.beside (ofColumn b), none⟩).outcome = .ok (t, List.range n) := by
  have hbrows : m.rows = (ofColumn b).rows := hrows.trans hb.symm
  have ht : Tableau.WellFormed n ⟨m.beside (ofColumn b), none⟩ :=
    hrows ▸ tableau_wellFormed (wellFormed_beside hm (wellFormed_ofColumn b) hbrows)
  have htcols : (m.beside (ofColumn b)).cols = n + 1 := congrArg (· + 1) hcols
  obtain ⟨u, hu⟩ := reduceUnknowns_of_solve hx
  rw [hrows] at hu
  obtain ⟨hequiv, -⟩ := (Tableau.ends_reduceUnknowns ht htcols).of_ok hu
  obtain ⟨_, hs, rfl⟩ := (Tableau.reduceUnknowns_mirrors _ n).of_ok hu
  refine ⟨u, ?_⟩
  rw [Tableau.forward, htcols]
  exact Tableau.advances_range_add hequiv.wellFormed.rows hs 1

/-- The forward pass on the coefficients alone. -/
theorem forward_coefficients_of_solve :
    ∃ t, (Tableau.forward ⟨m, none⟩).outcome = .ok (t, List.range n) := by
  have ht := Tableau.wellFormed_some hm hrows (wellFormed_ofColumn b) hb
  obtain ⟨u, hu⟩ := forward_of_solve hm hrows hcols hb hx
  obtain ⟨s, hs, -⟩ := (Tableau.forward_joined_iff ht hcols).1 hu
  obtain ⟨⟨t, _⟩, ht, -, rfl⟩ := ((Tableau.bare_simulation n).advances rfl
    (l := List.range m.cols) (fun k hk => hcols ▸ List.mem_range.1 hk) []).of_ok hs
  exact ⟨t, ht⟩

/-- The reduced form holds the solution. -/
theorem gauss_true_of_solve {pivots : List ℕ} {q : Mat}
    (hq : ((m.beside (ofColumn b)).gauss true).outcome = .ok (pivots, q)) :
    pivots = List.range n ∧ q = (identity n).beside (ofColumn x) := by
  obtain ⟨t, ht⟩ := forward_of_solve hm hrows hcols hb hx
  obtain rfl := pivots_of_gauss ht hq
  obtain ⟨l, hl, rfl⟩ := (gauss_beside_iff hm hrows hcols (wellFormed_ofColumn b) hb).1 hq
  obtain ⟨hlwf, hlrows, hlcols, hmul⟩ := mul_companion hm hrows (wellFormed_ofColumn b) hb hl
  obtain ⟨hxlen, hunit, hsolves⟩ := (ends_solve hm hrows hcols hb).of_ok hx
  refine ⟨rfl, congrArg _ (ext_toMatrix hlwf hlrows hlcols (wellFormed_ofColumn x) hxlen rfl ?_)⟩
  have hdet := (isUnit_iff_isUnit_det _).1 hunit
  have hcolumn : m.toMatrix n n * (ofColumn x).toMatrix n 1 = (ofColumn b).toMatrix n 1 := by
    rw [toMatrix_ofColumn, toMatrix_ofColumn, ← replicateCol_mulVec, hsolves]
  calc l.toMatrix n 1
      = (m.toMatrix n n)⁻¹ * (m.toMatrix n n * l.toMatrix n 1) :=
        (nonsing_inv_mul_cancel_left _ _ hdet).symm
    _ = (m.toMatrix n n)⁻¹ * (m.toMatrix n n * (ofColumn x).toMatrix n 1) := by
        rw [hmul, hcolumn]
    _ = (ofColumn x).toMatrix n 1 := nonsing_inv_mul_cancel_left _ _ hdet

/-- **A solved system in echelon form.** Where a system is solved, neither the echelon form of its
coefficients nor that of the coefficients with the right-hand side overflows, and both have a pivot
in every column of an unknown. The reduced form of the latter, unless it overflows, consists of the
identity and the solution. -/
theorem gauss_of_solve :
    ∃ p q, m.hstack (ofColumn b) = .ok p ∧ (identity n).hstack (ofColumn x) = .ok q ∧
      (∃ t, (p.gauss false).outcome = .ok (List.range n, t)) ∧
      (∃ t, (m.gauss false).outcome = .ok (List.range n, t)) ∧
      m.rank.outcome = .ok n ∧
      ((p.gauss true).outcome = .error .overflow ∨
        (p.gauss true).outcome = .ok (List.range n, q)) := by
  obtain ⟨hxlen, -, -⟩ := (ends_solve hm hrows hcols hb).of_ok hx
  obtain ⟨t, ht⟩ := forward_of_solve hm hrows hcols hb hx
  obtain ⟨s, hs⟩ := forward_coefficients_of_solve hm hrows hcols hb hx
  have hbrows : m.rows = (ofColumn b).rows := hrows.trans hb.symm
  have hp := wellFormed_beside hm (wellFormed_ofColumn b) hbrows
  refine ⟨m.beside (ofColumn b), (identity n).beside (ofColumn x),
    hstack_eq_ok_iff.2 ⟨hbrows, rfl⟩, hstack_eq_ok_iff.2 ⟨hxlen.symm, rfl⟩,
    ⟨t.main, gauss_of_forward ht⟩, ⟨s.main, gauss_of_forward hs⟩, ?_, ?_⟩
  · rw [rank, Traced.outcome_bind, gauss_of_forward hs]
    exact congrArg Except.ok List.length_range
  · cases hq : ((m.beside (ofColumn b)).gauss true).outcome with
    | error e => exact Or.inl (congrArg Except.error ((ends_gauss hp true).of_error hq))
    | ok r =>
      obtain ⟨pivots, q⟩ := r
      obtain ⟨rfl, rfl⟩ := gauss_true_of_solve hm hrows hcols hb hx hq
      exact Or.inr rfl

omit hm hrows hcols hb hx in
/-- A system with zeros on its diagonal. -/
theorem gauss_of_solve_offDiagonal :
    let m : Mat := ⟨3, 3, [[0, 1, 1], [1, 0, 1], [1, 1, 0]]⟩
    let b : Vec := [1, 1, 0]
    let x : Vec := [0, 0, 1]
    let p : Mat := ⟨3, 4, [[0, 1, 1, 1], [1, 0, 1, 1], [1, 1, 0, 0]]⟩
    let q : Mat := ⟨3, 4, [[1, 0, 0, 0], [0, 1, 0, 0], [0, 0, 1, 1]]⟩
    m.WellFormed ∧ (m.solve b).outcome = .ok x ∧ m.hstack (ofColumn b) = .ok p ∧
      (identity 3).hstack (ofColumn x) = .ok q ∧
      (∃ t, (p.gauss false).outcome = .ok ([0, 1, 2], t)) ∧
      (∃ t, (m.gauss false).outcome = .ok ([0, 1, 2], t)) ∧ m.rank.outcome = .ok 3 ∧
      (p.gauss true).outcome = .ok ([0, 1, 2], q) := by
  intro m b x p q
  have hm : m.WellFormed := ⟨rfl, by decide⟩
  have hx : (m.solve b).outcome = .ok x := by
    show (solve ⟨3, 3, [[0, 1, 1], [1, 0, 1], [1, 1, 0]]⟩ [1, 1, 0]).outcome = .ok [0, 0, 1]
    decide +kernel
  have hp : m.hstack (ofColumn b) = .ok p := by
    show hstack ⟨3, 3, [[0, 1, 1], [1, 0, 1], [1, 1, 0]]⟩ (ofColumn [1, 1, 0]) = _
    decide +kernel
  have hq : (identity 3).hstack (ofColumn x) = .ok q := by
    show (identity 3).hstack (ofColumn [0, 0, 1]) = _
    decide +kernel
  have hfits : (p.gauss true).outcome ≠ .error .overflow := by
    show (gauss ⟨3, 4, [[0, 1, 1, 1], [1, 0, 1, 1], [1, 1, 0, 0]]⟩ true).outcome ≠ _
    decide +kernel
  obtain ⟨p', q', hp', hq', haugmented, hcoefficients, hrank, hfull⟩ :=
    gauss_of_solve hm rfl rfl (b := b) rfl hx
  cases hp.symm.trans hp'
  cases hq.symm.trans hq'
  exact ⟨hm, hx, hp, hq, haugmented, hcoefficients, hrank, hfull.resolve_left hfits⟩

/-- The upward pass can overflow where back-substitution does not: here it adds `2 ^ 62` to itself,
while the sum of products that back-substitution subtracts is zero. -/
example :
    let x : Fraction := ⟨4611686018427387904, 1, Word.one_pos, by decide, by decide⟩
    (solve ⟨3, 3, [[1, 1, -1], [0, 1, 0], [0, 0, 1]]⟩ [x, x, x]).outcome = .ok [x, x, x] ∧
      (gauss ⟨3, 4, [[1, 1, -1, x], [0, 1, 0, x], [0, 0, 1, x]]⟩ true).outcome =
        .error .overflow := by
  decide +kernel

end Mat

end ExactLinAlg
