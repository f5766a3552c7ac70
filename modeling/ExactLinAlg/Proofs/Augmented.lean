import ExactLinAlg.Proofs.Beside
import ExactLinAlg.Proofs.Inverse
import ExactLinAlg.Proofs.Simulation

/-!
# A companion is as good as more columns

A tableau with a companion can be read as one matrix, with the companion to the right
(`Tableau.joined`). Row operations do the same to both, failures included (`joins_simulation`), so
the two eliminations stay in step over the columns of the matrix under elimination. The one on the
joined matrix goes on to the columns of the companion; where every row has a pivot already it finds
nothing there (`advances_range_add`), and where it ends with the pivots `0, …, n - 1` it has found
nothing there (`advances_range_of_add`). This relates the inverse to the reduced form of the matrix
with the identity to its right (`Mat.inverse_iff_gauss_hstack`).
-/

namespace ExactLinAlg

/-! ## Tableaus as one matrix -/

namespace Tableau

/-- The tableau with its companion to the right of the matrix under elimination. -/
def joined (t : Tableau) : Tableau := ⟨t.companion.elim t.main t.main.beside, none⟩

/-- `t` is well formed with `r` rows and `c` columns under elimination, and `u` is `t` as one
matrix. -/
structure Joins (r c : ℕ) (t u : Tableau) : Prop where
  wellFormed : t.WellFormed r
  cols : t.main.cols = c
  eq : u = t.joined

theorem Joins.rows {r c : ℕ} {t u : Tableau} (h : Joins r c t u) : u.main.rows = r := by
  obtain ⟨m, _ | k⟩ := t
  · rw [h.eq]
    exact h.wellFormed.rows
  · rw [h.eq]
    exact h.wellFormed.rows

theorem outcome_apply_some (m k : Mat) (op : RowOp) :
    (apply ⟨m, some k⟩ op).outcome = do return ⟨← op.apply m, some (← op.apply k)⟩ := by
  rw [apply, Traced.outcome_bind]
  apply bind_congr
  intro n
  rw [Traced.outcome_bind, Option.mapM_some, map_eq_pure_bind, Traced.outcome_bind, bind_assoc]
  rfl

theorem joins_simulation (r c : ℕ) : Simulation Error.Never c (Joins r c) where
  rows := by
    rintro ⟨m, _ | k⟩ _ ⟨-, -, rfl⟩ <;> rfl
  entry := by
    rintro ⟨m, _ | k⟩ _ ⟨ht, hcols, rfl⟩ i j hj
    · rfl
    · obtain ⟨hk, hkrows⟩ := ht.companion k rfl
      rw [← hcols] at hj
      exact Mat.entry_beside ht.main hk (ht.rows.trans hkrows.symm) i hj
  apply := by
    rintro ⟨m, _ | k⟩ _ ⟨ht, hcols, rfl⟩ op
    · apply Mirrors.refl
      intro u hu
      rw [outcome_apply_none] at hu
      obtain ⟨n, hn, hu⟩ := bind_eq_ok_iff.1 hu
      cases hu
      obtain ⟨hwf, hrows, hncols⟩ := RowOp.wellFormed_of_apply ht.main hn
      exact ⟨⟨hwf, hrows.trans ht.rows, fun _ h => nomatch h⟩, hncols.trans hcols, rfl⟩
    · obtain ⟨hk, hkrows⟩ := ht.companion k rfl
      show Mirrors _ _ (apply ⟨m, some k⟩ op).outcome (apply ⟨m.beside k, none⟩ op).outcome
      rw [outcome_apply_some, outcome_apply_none,
        Mat.apply_beside ht.main hk (ht.rows.trans hkrows.symm)]
      cases hn : op.apply m with
      | error e => exact Or.inr rfl
      | ok n =>
        cases hl : op.apply k with
        | error e => exact Or.inr rfl
        | ok l =>
          obtain ⟨hwf, hnrows, hncols⟩ := RowOp.wellFormed_of_apply ht.main hn
          obtain ⟨hlwf, hlrows, -⟩ := RowOp.wellFormed_of_apply hk hl
          refine ⟨⟨n.beside l, none⟩, rfl, ⟨hwf, hnrows.trans ht.rows, ?_⟩, hncols.trans hcols, rfl⟩
          rintro _ ⟨⟩
          exact ⟨hlwf, hlrows.trans hkrows⟩

/-! ## Columns after the last pivot -/

/-- A column finds no pivot when every row has one. -/
theorem advance_of_full {t : Tableau} {pivots : List ℕ} (h : t.main.rows ≤ pivots.length) (k : ℕ) :
    (advance (t, pivots) k).outcome = .ok (t, pivots) := by
  have hselect : t.main.selectPivot k pivots.length = Pure.pure none := by
    rw [Mat.selectPivot, if_pos h]
  have hfetch : t.fetchPivot k pivots.length = Pure.pure none := by
    rw [fetchPivot, hselect]
    rfl
  have hreduce : t.reduceColumn k pivots.length = Pure.pure none := by
    rw [reduceColumn, hfetch]
    rfl
  show (t.reduceColumn k pivots.length >>= _).outcome = _
  rw [hreduce]
  rfl

theorem advances_of_full {t : Tableau} {pivots : List ℕ} (h : t.main.rows ≤ pivots.length)
    (l : List ℕ) : (l.foldlM advance (t, pivots)).outcome = .ok (t, pivots) := by
  induction l with
  | nil => rfl
  | cons k l ih =>
    rw [List.foldlM_cons, Traced.outcome_bind, advance_of_full h]
    exact ih

/-- The forward pass adds the pivots of some of the columns that it visits. -/
theorem ends_advances (t : Tableau) (pivots l : List ℕ) :
    Ends Error.Any (fun s => ∃ l', l'.Sublist l ∧ s.2 = pivots ++ l')
      (l.foldlM advance (t, pivots)).outcome := by
  induction l generalizing t pivots with
  | nil => exact ⟨[], List.Sublist.refl [], (List.append_nil pivots).symm⟩
  | cons k l ih =>
    rw [List.foldlM_cons]
    apply Traced.ends_bind (P := fun s => s.2 = pivots ∨ s.2 = pivots ++ [k])
    · apply Traced.ends_bind (Ends.trivial (t.reduceColumn k pivots.length).outcome)
      rintro (_ | u) -
      · exact Or.inl rfl
      · exact Or.inr rfl
    · rintro ⟨u, pivots'⟩ (h | h) <;> subst h
      · apply (ih u pivots').imp
        rintro s ⟨l', hl', hs⟩
        exact ⟨l', hl'.cons k, hs⟩
      · apply (ih u (pivots ++ [k])).imp
        rintro s ⟨l', hl', hs⟩
        exact ⟨k :: l', hl'.cons_cons k, hs.trans (List.append_assoc pivots [k] l')⟩

/-- When the first columns and some later ones have the pivots `0, …, n - 1`, these have been found
in the first columns. -/
theorem advances_range_of_add {n c : ℕ} {t u : Tableau}
    (h : ((List.range (n + c)).foldlM advance (t, [])).outcome = .ok (u, List.range n)) :
    ∃ s, ((List.range n).foldlM advance (t, [])).outcome = .ok (s, List.range n) := by
  rw [List.range_add, List.foldlM_append, Traced.outcome_bind] at h
  obtain ⟨⟨s, pivots⟩, hfirst, hrest⟩ := bind_eq_ok_iff.1 h
  obtain ⟨l', hsub, happend⟩ := (ends_advances s pivots _).of_ok hrest
  replace happend : List.range n = pivots ++ l' := happend
  -- a pivot found later would be a column from `n` on
  have hnil : l' = [] := by
    apply List.eq_nil_iff_forall_not_mem.2
    intro k hk
    obtain ⟨a, -, rfl⟩ := List.mem_map.1 (hsub.subset hk)
    have hmem : n + a ∈ List.range n := by
      rw [happend]
      exact List.mem_append_right pivots hk
    have hlt := List.mem_range.1 hmem
    omega
  rw [happend, hnil, List.append_nil]
  rw [happend, hnil, List.append_nil] at hfirst
  exact ⟨s, hfirst⟩

/-- Columns after the last pivot are idle. -/
theorem advances_range_add {n : ℕ} {t s : Tableau} (hrows : s.main.rows = n)
    (h : ((List.range n).foldlM advance (t, [])).outcome = .ok (s, List.range n)) (c : ℕ) :
    ((List.range (n + c)).foldlM advance (t, [])).outcome = .ok (s, List.range n) := by
  have hfull : s.main.rows ≤ (List.range n).length := by rw [List.length_range, hrows]
  rw [List.range_add, List.foldlM_append, Traced.outcome_bind, h]
  exact advances_of_full hfull _

theorem eliminate_eq_ok_iff {full : Bool} {t u : Tableau} {pivots : List ℕ} :
    (t.eliminate full).outcome = .ok (u, pivots) ↔ ∃ s, t.forward.outcome = .ok (s, pivots) ∧
      if full then (s.upward pivots).outcome = .ok u else s = u := by
  rw [eliminate, Traced.outcome_bind_eq_ok_iff]
  cases full with
  | false =>
    constructor
    · rintro ⟨⟨s, _⟩, hs, ⟨⟩⟩
      exact ⟨u, hs, rfl⟩
    · rintro ⟨s, hs, rfl⟩
      exact ⟨(s, pivots), hs, rfl⟩
  | true =>
    constructor
    · rintro ⟨⟨s, pivots'⟩, hs, h⟩
      simp only [if_true, Traced.outcome_bind_eq_ok_iff] at h
      obtain ⟨v, hv, ⟨⟩⟩ := h
      exact ⟨s, hs, hv⟩
    · rintro ⟨s, hs, hu⟩
      refine ⟨(s, pivots), hs, ?_⟩
      simp only [if_true, Traced.outcome_bind_eq_ok_iff]
      exact ⟨u, hu, rfl⟩

section Regular

variable {n : ℕ} {t u : Tableau} (ht : t.WellFormed n) (hcols : t.main.cols = n)
include ht hcols

/-- The forward pass finds the same full set of pivots with the companion beside the matrix as with
the companion to the right of it. -/
theorem forward_joined_iff :
    t.joined.forward.outcome = .ok (u, List.range n) ↔
      ∃ s, t.forward.outcome = .ok (s, List.range n) ∧ Joins n n s u := by
  have hsim := (joins_simulation n n).advances (t := t) (u := t.joined) ⟨ht, hcols, rfl⟩
    (l := List.range n) (fun k hk => List.mem_range.1 hk) []
  have hwidth : ∃ c, t.joined.main.cols = n + c := by
    obtain ⟨m, _ | k⟩ := t
    · exact ⟨0, hcols⟩
    · exact ⟨k.cols, congrArg (· + k.cols) hcols⟩
  obtain ⟨c, hc⟩ := hwidth
  rw [forward, forward, hc, hcols]
  constructor
  · intro h
    -- the first `n` columns already end like this, and only they are compared
    obtain ⟨u', hu'⟩ := advances_range_of_add h
    obtain ⟨⟨s, pivots⟩, hs, hjoins, hpivots⟩ := hsim.of_ok_right hu'
    cases hpivots
    rw [advances_range_add hjoins.rows hu' c] at h
    cases h
    exact ⟨s, hs, hjoins⟩
  · rintro ⟨s, hs, hjoins⟩
    obtain ⟨⟨u', pivots⟩, hu', hjoins', hpivots⟩ := hsim.of_ok hs
    cases hpivots
    rw [hjoins.eq, ← hjoins'.eq]
    exact advances_range_add hjoins'.rows hu' c

theorem eliminate_joined_iff {full : Bool} :
    (t.joined.eliminate full).outcome = .ok (u, List.range n) ↔
      ∃ s, (t.eliminate full).outcome = .ok (s, List.range n) ∧ Joins n n s u := by
  simp only [eliminate_eq_ok_iff, forward_joined_iff ht hcols]
  cases full with
  | false =>
    constructor
    · rintro ⟨_, ⟨s, hs, hjoins⟩, rfl⟩
      exact ⟨s, ⟨s, hs, rfl⟩, hjoins⟩
    · rintro ⟨s, ⟨_, hs, rfl⟩, hjoins⟩
      exact ⟨u, ⟨_, hs, hjoins⟩, rfl⟩
  | true =>
    have hupward : ∀ {s u'}, Joins n n s u' →
        Mirrors Error.Never (Joins n n) (s.upward (List.range n)).outcome
          (u'.upward (List.range n)).outcome := by
      intro s u' h
      exact (joins_simulation n n).upward h fun p hp => List.mem_range.1 hp
    constructor
    · rintro ⟨u', ⟨s, hs, hjoins⟩, hu⟩
      obtain ⟨v, hv, hjoins'⟩ := (hupward hjoins).of_ok_right hu
      exact ⟨v, ⟨s, hs, hv⟩, hjoins'⟩
    · rintro ⟨v, ⟨s, hs, hv⟩, hjoins⟩
      have hequiv := ((ends_forward ht).of_ok hs).1
      have hstart : Joins n n s s.joined := ⟨hequiv.wellFormed, hequiv.cols.trans hcols, rfl⟩
      obtain ⟨u', hu', hjoins'⟩ := (hupward hstart).of_ok hv
      rw [hjoins.eq, ← hjoins'.eq]
      exact ⟨s.joined, ⟨s, hs, hstart⟩, hu'⟩

/-- A matrix with a pivot in every column becomes the identity. -/
theorem main_eq_identity (h : (t.eliminate true).outcome = .ok (u, List.range n)) :
    u.main = Mat.identity n := by
  obtain ⟨hequiv, hstairs, hclean⟩ := (ends_eliminate ht true).of_ok h
  have hwf := hequiv.wellFormed
  rw [hcols] at hstairs
  have hone := hstairs.eq_one (hclean rfl) List.length_range
  exact Mat.ext_toMatrix hwf.main hwf.rows (hequiv.cols.trans hcols) (Mat.wellFormed_identity n) rfl
    rfl (hone.trans (Mat.toMatrix_identity n).symm)

end Regular

end Tableau

/-! ## The inverse -/

namespace Mat

theorem gauss_eq_ok_iff {p q : Mat} {full : Bool} {pivots : List ℕ} :
    (p.gauss full).outcome = .ok (pivots, q) ↔
      ∃ u, (Tableau.eliminate full ⟨p, none⟩).outcome = .ok (u, pivots) ∧ u.main = q := by
  rw [gauss, Traced.outcome_bind_eq_ok_iff]
  constructor
  · rintro ⟨⟨u, pivots⟩, helim, ⟨⟩⟩
    exact ⟨u, helim, rfl⟩
  · rintro ⟨u, helim, rfl⟩
    exact ⟨(u, pivots), helim, rfl⟩

theorem gauss_of_forward {p : Mat} {t : Tableau} {pivots : List ℕ}
    (h : (Tableau.forward ⟨p, none⟩).outcome = .ok (t, pivots)) :
    (p.gauss false).outcome = .ok (pivots, t.main) :=
  gauss_eq_ok_iff.2 ⟨t, Tableau.eliminate_eq_ok_iff.2 ⟨t, h, rfl⟩, rfl⟩

/-- The reduced form has the pivots of the echelon form. -/
theorem pivots_of_gauss {p q : Mat} {t : Tableau} {full : Bool} {pivots pivots' : List ℕ}
    (h : (Tableau.forward ⟨p, none⟩).outcome = .ok (t, pivots))
    (hq : (p.gauss full).outcome = .ok (pivots', q)) : pivots' = pivots := by
  obtain ⟨u, hu, -⟩ := gauss_eq_ok_iff.1 hq
  obtain ⟨s, hs, -⟩ := Tableau.eliminate_eq_ok_iff.1 hu
  rw [h] at hs
  cases hs
  rfl

variable {m : Mat} {n : ℕ} (hm : m.WellFormed) (hrows : m.rows = n) (hcols : m.cols = n)
include hm hrows hcols

/-- The inverse is the companion of the matrix that has become the identity. -/
theorem inverse_eq_ok_iff {b : Mat} :
    m.inverse.outcome = .ok b ↔
      (Tableau.eliminate true ⟨m, some (identity n)⟩).outcome =
        .ok (⟨identity n, some b⟩, List.range n) := by
  have ht := Tableau.wellFormed_some hm hrows (wellFormed_identity n) rfl
  rw [inverse, hcols, Traced.outcome_bind_eq_ok_iff]
  constructor
  · rintro ⟨_, -, h⟩
    obtain ⟨⟨u, pivots⟩, helim, h⟩ := Traced.outcome_bind_eq_ok_iff.1 h
    obtain ⟨hequiv, hstairs, -⟩ := (Tableau.ends_eliminate ht true).of_ok helim
    by_cases hlen : pivots.length = n
    · rw [hcols] at hstairs
      obtain rfl := hstairs.eq_range hlen
      have hmain := Tableau.main_eq_identity ht hcols helim
      obtain ⟨_, -, _, -, -, hcomp⟩ := hequiv
      obtain ⟨main, companion⟩ := u
      cases hcomp with
      | some hk =>
        simp only [List.length_range, ne_eq, not_true_eq_false, if_false] at h
        cases h
        cases hmain
        exact helim
    · simp only [if_pos hlen] at h
      cases h
  · intro h
    refine ⟨(), ?_, ?_⟩
    · exact checkSquare_eq_ok_iff.2 (hrows.trans hcols.symm)
    · rw [Traced.outcome_bind, h]
      show Traced.outcome (if (List.range n).length ≠ n then _ else _) = _
      rw [if_neg (not_not.2 List.length_range)]
      rfl

section Companion

variable {k : Mat} (hk : k.WellFormed) (hkrows : k.rows = n)
include hk hkrows

/-- With a pivot in every column of the matrix, elimination ends alike with a companion beside the
matrix and to the right of it. -/
theorem gauss_beside_iff {q : Mat} :
    ((m.beside k).gauss true).outcome = .ok (List.range n, q) ↔
      ∃ l, (Tableau.eliminate true ⟨m, some k⟩).outcome =
        .ok (⟨identity n, some l⟩, List.range n) ∧ q = (identity n).beside l := by
  have ht := Tableau.wellFormed_some hm hrows hk hkrows
  rw [gauss_eq_ok_iff]
  constructor
  · rintro ⟨u, hu, rfl⟩
    obtain ⟨s, hs, hjoins⟩ := (Tableau.eliminate_joined_iff ht hcols).1 hu
    have hmain := Tableau.main_eq_identity ht hcols hs
    obtain ⟨⟨_, -, _, -, -, hcomp⟩, -, -⟩ := (Tableau.ends_eliminate ht true).of_ok hs
    obtain ⟨main, companion⟩ := s
    cases hcomp with
    | @some _ l hl =>
      cases hmain
      exact ⟨l, hs, congrArg Tableau.main hjoins.eq⟩
  · rintro ⟨l, hl, rfl⟩
    have hwf := ((Tableau.ends_eliminate ht true).of_ok hl).1.wellFormed
    have hjoins : Tableau.Joins n n ⟨identity n, some l⟩ ⟨(identity n).beside l, none⟩ :=
      ⟨hwf, rfl, rfl⟩
    exact ⟨_, (Tableau.eliminate_joined_iff ht hcols).2 ⟨_, hl, hjoins⟩, rfl⟩

omit hcols in
/-- The companion becomes the solution of the matrix equation. -/
theorem mul_companion {l : Mat} {pivots : List ℕ}
    (h : (Tableau.eliminate true ⟨m, some k⟩).outcome = .ok (⟨identity n, some l⟩, pivots)) :
    l.WellFormed ∧ l.rows = n ∧ l.cols = k.cols ∧
      ∀ c, m.toMatrix n n * l.toMatrix n c = k.toMatrix n c := by
  have ht := Tableau.wellFormed_some hm hrows hk hkrows
  obtain ⟨⟨d, -, P, -, hmain, hcomp⟩, -, -⟩ := (Tableau.ends_eliminate ht true).of_ok h
  cases hcomp with
  | some hl =>
    refine ⟨hl.wellFormed, hl.rows, hl.cols, ?_⟩
    intro c
    have hone : P * m.toMatrix n n = 1 := by
      rw [← hmain.toMatrix n, toMatrix_identity]
    rw [hl.toMatrix c, ← Matrix.mul_assoc, mul_eq_one_comm.1 hone, Matrix.one_mul]

end Companion

/-- **The inverse by more columns.** The inverse of a square matrix is what elimination makes of the
identity to its right: a matrix is the inverse exactly if the reduced form of the matrix with the
identity to its right has its pivots in the columns of the matrix, and consists of the identity and
that matrix. Neither computation overflows where the other one comes to this end. -/
theorem inverse_iff_gauss_hstack :
    ∃ p, m.hstack (identity n) = .ok p ∧
      (∀ b : Mat, b.WellFormed → b.rows = n → b.cols = n →
        ∃ q, (identity n).hstack b = .ok q ∧
          (m.inverse.outcome = .ok b ↔ (p.gauss true).outcome = .ok (List.range n, q))) ∧
      ((∃ b, m.inverse.outcome = .ok b) ↔
        ∃ q, (p.gauss true).outcome = .ok (List.range n, q)) := by
  have hid := wellFormed_identity n
  have hgauss (q : Mat) := gauss_beside_iff hm hrows hcols hid rfl (q := q)
  refine ⟨m.beside (identity n), hstack_eq_ok_iff.2 ⟨hrows, rfl⟩, ?_, ?_⟩
  · intro b hb hbrows hbcols
    refine ⟨(identity n).beside b, hstack_eq_ok_iff.2 ⟨hbrows.symm, rfl⟩, ?_⟩
    rw [inverse_eq_ok_iff hm hrows hcols, hgauss]
    constructor
    · intro h
      exact ⟨b, h, rfl⟩
    · rintro ⟨l, hl, hbl⟩
      obtain ⟨hlwf, hlrows, -, -⟩ := mul_companion hm hrows hid rfl hl
      rw [beside_injective hid hb hlwf hbrows.symm hlrows.symm hbl]
      exact hl
  · simp only [inverse_eq_ok_iff hm hrows hcols, hgauss]
    constructor
    · rintro ⟨b, h⟩
      exact ⟨_, b, h, rfl⟩
    · rintro ⟨_, b, h, -⟩
      exact ⟨b, h⟩

omit hm hrows hcols in
/-- The reduced form of a matrix with the identity to its right, from its inverse. -/
theorem inverse_iff_gauss_hstack_two_by_two :
    let m : Mat := ⟨2, 2, [[0, 1], [1, 1]]⟩
    let b : Mat := ⟨2, 2, [[-1, 1], [1, 0]]⟩
    let p : Mat := ⟨2, 4, [[0, 1, 1, 0], [1, 1, 0, 1]]⟩
    let q : Mat := ⟨2, 4, [[1, 0, -1, 1], [0, 1, 1, 0]]⟩
    m.WellFormed ∧ b.WellFormed ∧ m.inverse.outcome = .ok b ∧ m.hstack (identity 2) = .ok p ∧
      (identity 2).hstack b = .ok q ∧ (p.gauss true).outcome = .ok ([0, 1], q) := by
  intro m b p q
  have hm : m.WellFormed := ⟨rfl, by decide⟩
  have hb : b.WellFormed := ⟨rfl, by decide⟩
  have hinverse : m.inverse.outcome = .ok b := by
    show (inverse ⟨2, 2, [[0, 1], [1, 1]]⟩).outcome = _
    decide +kernel
  have hp : m.hstack (identity 2) = .ok p := by
    show hstack ⟨2, 2, [[0, 1], [1, 1]]⟩ (identity 2) = _
    decide +kernel
  have hq : (identity 2).hstack b = .ok q := by
    show (identity 2).hstack ⟨2, 2, [[-1, 1], [1, 0]]⟩ = _
    decide +kernel
  obtain ⟨p', hp', hiff, -⟩ := inverse_iff_gauss_hstack hm rfl rfl
  obtain ⟨q', hq', hgauss⟩ := hiff b hb rfl rfl
  cases hp.symm.trans hp'
  cases hq.symm.trans hq'
  exact ⟨hm, hb, hinverse, hp, hq, hgauss.1 hinverse⟩

end Mat

end ExactLinAlg
