import ExactLinAlg.Proofs.Entries

/-!
# Dot products

A dot product adds up its products from the left, so the order of the entries decides which of the
sums overflow. The order of the two vectors does not matter, since both have the same products
(`Vec.dot_comm`). The dot product of two front parts forms the first of these sums and no others
(`Vec.dot_append`). That of the remaining parts begins anew from zero, with sums of its own, and
only its value is known (`Vec.toRat_of_dot_slice`).
-/

namespace ExactLinAlg.Vec

variable {v w v' w' : Vec}

theorem dot_of_length_ne (hlen : v.length ≠ w.length) :
    dot v w = .error (.dimensionMismatch v.length w.length) := by
  rw [dot, checkDims, if_neg hlen]
  rfl

theorem dot_eq_foldlM (hlen : v.length = w.length) :
    dot v w = (v.zip w).foldlM
      (fun sum pair => do Fraction.add sum (← Fraction.mul pair.1 pair.2)) 0 := by
  rw [dot, checkDims, if_pos hlen]
  rfl

/-- The same products are added up in the same order. -/
theorem dot_comm (hlen : v.length = w.length) : dot v w = dot w v := by
  rw [dot_eq_foldlM hlen, dot_eq_foldlM hlen.symm, ← List.zip_swap, List.foldlM_map]
  apply foldlM_congr
  intro sum pair _
  rw [Prod.fst_swap, Prod.snd_swap, Fraction.mul_comm]

/-- The sums of longer vectors begin with those of the front parts. -/
theorem dot_append (hlen : v.length = w.length) (hlen' : v'.length = w'.length) :
    dot (v ++ v') (w ++ w') = dot v w >>= (v'.zip w').foldlM
      (fun sum pair => do Fraction.add sum (← Fraction.mul pair.1 pair.2)) := by
  have happend : (v ++ v').length = (w ++ w').length := by
    rw [List.length_append, List.length_append, hlen, hlen']
  rw [dot_eq_foldlM happend, dot_eq_foldlM hlen, List.zip_append hlen, List.foldlM_append]

/-- The front parts have a dot product if the whole vectors do. -/
theorem exists_dot_take {s : Fraction} (hlen : v.length = w.length) (h : dot v w = .ok s) (k : ℕ) :
    ∃ s₁, dot (v.take k) (w.take k) = .ok s₁ := by
  have htake : (v.take k).length = (w.take k).length := by
    rw [List.length_take, List.length_take, hlen]
  have hdrop : (v.drop k).length = (w.drop k).length := by
    rw [List.length_drop, List.length_drop, hlen]
  have hsplit := dot_append htake hdrop
  rw [List.take_append_drop, List.take_append_drop, h] at hsplit
  obtain ⟨s₁, hs₁, -⟩ := bind_eq_ok_iff.1 hsplit.symm
  exact ⟨s₁, hs₁⟩

/-- The dot product of two parts is the sum over their range of positions. -/
theorem toRat_of_dot_slice {lo hi : ℕ} {s : Fraction} (hlo : lo ≤ hi) (hv : hi ≤ v.length)
    (hw : hi ≤ w.length) (h : (do dot (← slice v lo hi) (← slice w lo hi)) = .ok s) :
    s.toRat = ∑ j ∈ Finset.Ico lo hi, value v j * value w j := by
  obtain ⟨p, hp, h⟩ := bind_eq_ok_iff.1 h
  obtain ⟨q, hq, h⟩ := bind_eq_ok_iff.1 h
  obtain ⟨hplen, hpvalue⟩ := (ends_slice (E := Error.Any) hlo hv).of_ok hp
  obtain ⟨hqlen, hqvalue⟩ := (ends_slice (E := Error.Any) hlo hw).of_ok hq
  rw [(ends_dot (hplen.trans hqlen.symm)).of_ok h, hplen, Finset.sum_Ico_eq_sum_range]
  apply Finset.sum_congr rfl
  intro j hj
  rw [hpvalue j (Finset.mem_range.1 hj), hqvalue j (Finset.mem_range.1 hj)]

/-- **Dot products.** Vectors of different lengths have none, in either order, and both lengths are
named. Vectors of the same length have the same dot product in both orders, failures included, and
the only failure is an overflow. Its value is the sum of the products of the entries. Wherever the
vectors are split, the front parts have a dot product too, and if the remaining parts have one that
can be added to it, the sum is the dot product of the whole. -/
theorem dot_exact (v w : Vec) :
    (v.length ≠ w.length →
      dot v w = .error (.dimensionMismatch v.length w.length) ∧
      dot w v = .error (.dimensionMismatch w.length v.length)) ∧
    (v.length = w.length →
      dot v w = dot w v ∧
      (∀ e, dot v w = .error e → e = .overflow) ∧
      ∀ s, dot v w = .ok s →
        s.toRat = ∑ j ∈ Finset.range v.length, value v j * value w j ∧
        ∀ k ≤ v.length, ∃ s₁, (do dot (← slice v 0 k) (← slice w 0 k)) = .ok s₁ ∧
          ∀ s₂ t, (do dot (← slice v k v.length) (← slice w k w.length)) = .ok s₂ →
            Fraction.add s₁ s₂ = .ok t → t = s) := by
  refine ⟨fun hlen => ⟨dot_of_length_ne hlen, dot_of_length_ne hlen.symm⟩, fun hlen => ?_⟩
  refine ⟨dot_comm hlen, fun e he => (ends_dot hlen).of_error he, fun s hs => ?_⟩
  have hvalue := (ends_dot hlen).of_ok hs
  refine ⟨hvalue, fun k hk => ?_⟩
  obtain ⟨s₁, hs₁⟩ := exists_dot_take hlen hs k
  have hfront : (do dot (← slice v 0 k) (← slice w 0 k)) = .ok s₁ := by
    rw [slice, slice, if_pos ⟨Nat.zero_le k, hk⟩, if_pos ⟨Nat.zero_le k, hlen ▸ hk⟩]
    exact hs₁
  refine ⟨s₁, hfront, fun s₂ t hs₂ ht => ?_⟩
  rw [← hlen] at hs₂
  apply Fraction.toRat_injective
  rw [Fraction.toRat_of_add ht, toRat_of_dot_slice (Nat.zero_le k) hk (hlen ▸ hk) hfront,
    toRat_of_dot_slice hk le_rfl hlen.le hs₂,
    Finset.sum_Ico_consecutive _ (Nat.zero_le k) hk, hvalue, Finset.range_eq_Ico]

/-- Sums that cancel: the two parts after the first position have no dot product, those after the
second one do, and so do the whole vectors, whose lengths are equal. -/
theorem dot_exact_of_cancelling :
    let x : Fraction := ⟨9223372036854775807, 1, Word.one_pos, by decide, by decide⟩
    let v : Vec := [-x, x, x]
    let w : Vec := [1, 1, 1]
    v.length = w.length ∧ dot v w = .ok x ∧ dot w v = .ok x ∧
      x.toRat = ∑ j ∈ Finset.range v.length, value v j * value w j ∧
      (do dot (← slice v 1 3) (← slice w 1 3)) = .error .overflow ∧
      (do dot (← slice v 0 2) (← slice w 0 2)) = .ok 0 ∧
      (do dot (← slice v 2 v.length) (← slice w 2 w.length)) = .ok x ∧
      Fraction.add 0 x = dot v w ∧
      [1].length ≠ w.length ∧ dot [1] w = .error (.dimensionMismatch 1 3) ∧
      dot w [1] = .error (.dimensionMismatch 3 1) := by
  intro x v w
  have hlen : v.length = w.length := by
    decide
  have hdot : dot v w = .ok x := by
    decide +kernel
  have hback : (do dot (← slice v 2 v.length) (← slice w 2 w.length)) = .ok x := by
    decide +kernel
  obtain ⟨-, hsame⟩ := dot_exact v w
  obtain ⟨hcomm, -, hresult⟩ := hsame hlen
  obtain ⟨hvalue, hsplit⟩ := hresult x hdot
  obtain ⟨s₁, hfront, hwhole⟩ := hsplit 2 (by decide)
  have hzero : s₁ = 0 := by
    have hrun : (do dot (← slice v 0 2) (← slice w 0 2)) = .ok 0 := by
      decide +kernel
    exact Except.ok.inj (hfront.symm.trans hrun)
  subst hzero
  have hsum : Fraction.add 0 x = dot v w := by
    obtain ⟨t, ht⟩ : ∃ t, Fraction.add 0 x = .ok t := ⟨x, Fraction.zero_add x⟩
    rw [ht, hwhole x t hback ht, hdot]
  have hone : [1].length ≠ w.length := by
    decide
  obtain ⟨hmismatch, -⟩ := dot_exact [1] w
  exact ⟨hlen, hdot, hcomm ▸ hdot, hvalue, by decide +kernel, hfront, hback, hsum, hone,
    hmismatch hone⟩

end ExactLinAlg.Vec
