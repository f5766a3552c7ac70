import ExactLinAlg.Proofs.Entries
import ExactLinAlg.Proofs.Order

/-!
# The orders of vectors

The lexicographic comparison of two vectors gets from position to position as long as the entries
are equal and their cross products are words (`Vec.ComparesAt`). Unless it gets to the end, it comes
out as the comparison of two entries, failures included (`Vec.compareEntries_eq_iff`). So an entry
behind the first difference can make nothing overflow, but an equal entry before it can. The
comparison of the norms of two vectors is that of two sums of squares.
-/

namespace ExactLinAlg

namespace Fraction

/-- The cross products of two fractions are words. -/
def Comparable (a b : Fraction) : Prop :=
  Word.InRange (a.num.toInt * b.den.toInt) ∧ Word.InRange (b.num.toInt * a.den.toInt)

instance (a b : Fraction) : Decidable (Comparable a b) :=
  inferInstanceAs (Decidable (_ ∧ _))

variable {a b : Fraction}

theorem compare_eq_overflow_iff : compare a b = .error .overflow ↔ ¬ Comparable a b := by
  rw [(overflowsIff_compare a b).1, Comparable, not_and_or]

theorem compare_eq_ok_iff {o : Ordering} :
    compare a b = .ok o ↔ Comparable a b ∧ Ord.compare a.toRat b.toRat = o := by
  constructor
  · intro h
    refine ⟨?_, (eq_order_of_compare h).symm⟩
    by_contra hc
    cases h.symm.trans (compare_eq_overflow_iff.2 hc)
  · rintro ⟨hc, rfl⟩
    cases h : compare a b with
    | ok o => rw [eq_order_of_compare h]
    | error e =>
      cases (ends_compare a b).of_error h
      exact absurd hc (compare_eq_overflow_iff.1 h)

theorem comparable_zero (b : Fraction) : Comparable 0 b :=
  (compare_eq_ok_iff.1 (compare_zero b)).1

theorem compare_eq_eq_iff : compare a b = .ok .eq ↔ a = b ∧ Comparable a a := by
  rw [compare_eq_ok_iff, compare_eq_iff_eq]
  constructor
  · rintro ⟨hc, hvalue⟩
    cases toRat_injective hvalue
    exact ⟨rfl, hc⟩
  · rintro ⟨rfl, hc⟩
    exact ⟨hc, rfl⟩

end Fraction

namespace Vec

/-- The comparison of two vectors gets to position `k`, where their entries are `a` and `b`: the
entries before are equal, and comparing them does not overflow. -/
structure ComparesAt (v w : Vec) (k : ℕ) (a b : Fraction) : Prop where
  left : v[k]? = some a
  right : w[k]? = some b
  take_eq : v.take k = w.take k
  comparable : ∀ x ∈ v.take k, x.Comparable x

variable {v w u : Vec} {a b x y : Fraction}

/-! ## One position -/

theorem comparesAt_cons_zero : ComparesAt (a :: v) (b :: w) 0 x y ↔ a = x ∧ b = y := by
  constructor
  · intro h
    exact ⟨Option.some.inj h.left, Option.some.inj h.right⟩
  · rintro ⟨rfl, rfl⟩
    exact ⟨rfl, rfl, rfl, fun _ hx => nomatch hx⟩

theorem comparesAt_cons_succ {k : ℕ} :
    ComparesAt (a :: v) (b :: w) (k + 1) x y ↔ (a = b ∧ a.Comparable a) ∧ ComparesAt v w k x y := by
  constructor
  · intro h
    have htake := List.cons.inj h.take_eq
    have hcomparable := List.forall_mem_cons.1 h.comparable
    exact ⟨⟨htake.1, hcomparable.1⟩, h.left, h.right, htake.2, hcomparable.2⟩
  · rintro ⟨⟨rfl, ha⟩, h⟩
    exact ⟨h.left, h.right, congrArg (a :: ·) h.take_eq, List.forall_mem_cons.2 ⟨ha, h.comparable⟩⟩

/-- The comparison gets to a position with a property either at once or after an equal entry. -/
theorem exists_comparesAt_cons {P : Fraction → Fraction → Prop} :
    (∃ k x y, ComparesAt (a :: v) (b :: w) k x y ∧ P x y) ↔
      P a b ∨ (a = b ∧ a.Comparable a) ∧ ∃ k x y, ComparesAt v w k x y ∧ P x y := by
  constructor
  · rintro ⟨k, x, y, h, hP⟩
    cases k with
    | zero =>
      obtain ⟨rfl, rfl⟩ := comparesAt_cons_zero.1 h
      exact Or.inl hP
    | succ k =>
      obtain ⟨hab, h⟩ := comparesAt_cons_succ.1 h
      exact Or.inr ⟨hab, k, x, y, h, hP⟩
  · rintro (hP | ⟨hab, k, x, y, h, hP⟩)
    · exact ⟨0, a, b, comparesAt_cons_zero.2 ⟨rfl, rfl⟩, hP⟩
    · exact ⟨k + 1, x, y, comparesAt_cons_succ.2 ⟨hab, h⟩, hP⟩

theorem compareEntries_cons_of_eq (h : Fraction.compare a b = .ok .eq) :
    compareEntries (a :: v) (b :: w) = compareEntries v w := by
  rw [compareEntries, h]
  rfl

theorem compareEntries_cons_of_ne (h : Fraction.compare a b ≠ .ok .eq) :
    compareEntries (a :: v) (b :: w) = Fraction.compare a b := by
  rw [compareEntries]
  cases hab : Fraction.compare a b with
  | error e => rfl
  | ok o =>
    cases o with
    | lt => rfl
    | eq => exact absurd hab h
    | gt => rfl

/-! ## All positions -/

theorem compareEntries_eq_eq_iff (hlen : v.length = w.length) :
    compareEntries v w = .ok .eq ↔ v = w ∧ ∀ x ∈ v, x.Comparable x := by
  induction v generalizing w with
  | nil =>
    rw [List.eq_nil_of_length_eq_zero hlen.symm]
    exact iff_of_true rfl ⟨rfl, fun _ hx => nomatch hx⟩
  | cons a v ih =>
    obtain _ | ⟨b, w⟩ := w
    · cases hlen
    · rw [List.forall_mem_cons, List.cons.injEq]
      by_cases hab : Fraction.compare a b = .ok .eq
      · obtain ⟨rfl, ha⟩ := Fraction.compare_eq_eq_iff.1 hab
        rw [compareEntries_cons_of_eq hab, ih (Nat.succ.inj hlen)]
        exact ⟨fun h => ⟨⟨rfl, h.1⟩, ha, h.2⟩, fun h => ⟨h.1.2, h.2.2⟩⟩
      · rw [compareEntries_cons_of_ne hab]
        exact iff_of_false hab fun h => hab (Fraction.compare_eq_eq_iff.2 ⟨h.1.1, h.2.1⟩)

/-- Any other outcome is that of the entries to which the comparison gets. -/
theorem compareEntries_eq_iff {r : Except Error Ordering} (hr : r ≠ .ok .eq)
    (hlen : v.length = w.length) :
    compareEntries v w = r ↔ ∃ k a b, ComparesAt v w k a b ∧ Fraction.compare a b = r := by
  induction v generalizing w with
  | nil =>
    rw [List.eq_nil_of_length_eq_zero hlen.symm]
    exact iff_of_false hr.symm fun ⟨_, _, _, h, _⟩ => nomatch h.left
  | cons a v ih =>
    obtain _ | ⟨b, w⟩ := w
    · cases hlen
    · rw [exists_comparesAt_cons, ← Fraction.compare_eq_eq_iff, ← ih (Nat.succ.inj hlen)]
      by_cases hab : Fraction.compare a b = .ok .eq
      · have hne : Fraction.compare a b ≠ r := hab ▸ hr.symm
        rw [compareEntries_cons_of_eq hab, or_iff_right hne, and_iff_right hab]
      · rw [compareEntries_cons_of_ne hab, or_iff_left fun h => hab h.1]

theorem compareEntries_swap (v w : Vec) :
    compareEntries w v = (compareEntries v w).map Ordering.swap := by
  induction v generalizing w with
  | nil => cases w <;> rfl
  | cons a v ih =>
    obtain _ | ⟨b, w⟩ := w
    · rfl
    · have hswap := Fraction.compare_swap a b
      by_cases hab : Fraction.compare a b = .ok .eq
      · have hba : Fraction.compare b a = .ok .eq := by rw [hswap, hab]; rfl
        rw [compareEntries_cons_of_eq hab, compareEntries_cons_of_eq hba, ih]
      · have hba : Fraction.compare b a ≠ .ok .eq := by
          intro hba
          have hswap' := Fraction.compare_swap b a
          rw [hba] at hswap'
          exact hab hswap'
        rw [compareEntries_cons_of_ne hab, compareEntries_cons_of_ne hba, hswap]

/-- Where both comparisons of a chain pass by equal entries, so does the comparison of its ends. The
first position where one of them stops decides. -/
theorem compareEntries_trans (h : compareEntries v w = .ok .lt)
    (h' : compareEntries w u = .ok .lt) :
    compareEntries v u = .ok .lt ∨ compareEntries v u = .error .overflow := by
  induction v generalizing w u with
  | nil => cases h
  | cons a v ih =>
    obtain _ | ⟨b, w⟩ := w
    · cases h
    obtain _ | ⟨c, u⟩ := u
    · cases h'
    by_cases hab : Fraction.compare a b = .ok .eq
    · obtain ⟨rfl, -⟩ := Fraction.compare_eq_eq_iff.1 hab
      rw [compareEntries_cons_of_eq hab] at h
      by_cases hac : Fraction.compare a c = .ok .eq
      · rw [compareEntries_cons_of_eq hac] at h' ⊢
        exact ih h h'
      · rw [compareEntries_cons_of_ne hac] at h' ⊢
        exact Or.inl h'
    · rw [compareEntries_cons_of_ne hab] at h
      by_cases hbc : Fraction.compare b c = .ok .eq
      · obtain ⟨rfl, -⟩ := Fraction.compare_eq_eq_iff.1 hbc
        rw [compareEntries_cons_of_ne hab]
        exact Or.inl h
      · rw [compareEntries_cons_of_ne hbc] at h'
        have hac := Fraction.compare_trans h h'
        have hne : Fraction.compare a c ≠ .ok .eq := by
          rcases hac with hac | hac <;> rw [hac] <;> exact nofun
        rw [compareEntries_cons_of_ne hne]
        exact hac

theorem lexCompare_of_length_eq (hlen : v.length = w.length) :
    lexCompare v w = compareEntries v w := by
  rw [lexCompare, checkDims, if_pos hlen]
  rfl

theorem length_eq_of_lexCompare {o : Ordering} (h : lexCompare v w = .ok o) :
    v.length = w.length := by
  obtain ⟨_, hdims, -⟩ := bind_eq_ok_iff.1 h
  exact checkDims_eq_ok_iff.1 hdims

theorem lexCompare_trans (h : lexCompare v w = .ok .lt) (h' : lexCompare w u = .ok .lt) :
    lexCompare v u = .ok .lt ∨ lexCompare v u = .error .overflow := by
  have hvw := length_eq_of_lexCompare h
  have hwu := length_eq_of_lexCompare h'
  rw [lexCompare_of_length_eq hvw] at h
  rw [lexCompare_of_length_eq hwu] at h'
  rw [lexCompare_of_length_eq (hvw.trans hwu)]
  exact compareEntries_trans h h'

/-! ## Norms -/

/-- The square of the Euclidean norm. -/
def normSq (v : Vec) : ℚ := ∑ j ∈ Finset.range v.length, value v j ^ 2

theorem ends_dot_self (v : Vec) :
    Ends Error.IsOverflow (fun s => s.toRat = normSq v) (dot v v) := by
  apply (ends_dot rfl).imp
  intro s hs
  simp only [hs, normSq, pow_two]

theorem ends_normCompare (v w : Vec) :
    Ends Error.IsOverflow (fun o => o = Ord.compare (normSq v) (normSq w)) (normCompare v w) := by
  apply (ends_dot_self v).bind
  intro left hleft
  apply (ends_dot_self w).bind
  intro right hright
  rw [← hleft, ← hright]
  exact (Fraction.ends_compare left right).strengthen fun o ho _ => Fraction.eq_order_of_compare ho

/-- The norms are computed in the order of the vectors, and either of them can overflow. -/
theorem normCompare_swap (v w : Vec) : normCompare w v = (normCompare v w).map Ordering.swap := by
  unfold normCompare
  cases hv : dot v v with
  | ok left =>
    cases dot w w with
    | ok right => exact Fraction.compare_swap left right
    | error e => rfl
  | error e =>
    cases hw : dot w w with
    | ok right => rfl
    | error e' =>
      rw [(ends_dot_self v).of_error hv, (ends_dot_self w).of_error hw]
      rfl

/-- **The orders of vectors.** Vectors of the same length compare as equal exactly if they are equal
and no entry overflows when it is compared with itself. They compare as less, or as greater, exactly
if the first is less, or greater, at the first position where they differ and nothing overflows up
to there; and the comparison overflows exactly if it does so at a position before which all entries
are equal. The reversed comparison has the reversed order, and overflows if this one does; a chain
of two vectors that compare as less leads to one that compares as less, or overflows. The comparison
of the norms of any two vectors fails with an overflow only, gives the order of the sums of squares,
and is reversed in the same way. -/
theorem orders_exact (v w u : Vec) :
    (v.length = w.length →
      (lexCompare v w = .ok .eq ↔ v = w ∧ ∀ x ∈ v, x.Comparable x) ∧
      (lexCompare v w = .ok .lt ↔
        ∃ k a b, ComparesAt v w k a b ∧ a.Comparable b ∧ a.toRat < b.toRat) ∧
      (lexCompare v w = .ok .gt ↔
        ∃ k a b, ComparesAt v w k a b ∧ a.Comparable b ∧ b.toRat < a.toRat) ∧
      (lexCompare v w = .error .overflow ↔ ∃ k a b, ComparesAt v w k a b ∧ ¬ a.Comparable b) ∧
      lexCompare w v = (lexCompare v w).map Ordering.swap) ∧
    (lexCompare v w = .ok .lt → lexCompare w u = .ok .lt →
      lexCompare v u = .ok .lt ∨ lexCompare v u = .error .overflow) ∧
    (∀ e, normCompare v w = .error e → e = .overflow) ∧
    (∀ o, normCompare v w = .ok o → o = Ord.compare (normSq v) (normSq w)) ∧
    normCompare w v = (normCompare v w).map Ordering.swap := by
  refine ⟨fun hlen => ?_, lexCompare_trans, fun e => (ends_normCompare v w).of_error,
    fun o => (ends_normCompare v w).of_ok, normCompare_swap v w⟩
  rw [lexCompare_of_length_eq hlen, lexCompare_of_length_eq hlen.symm]
  refine ⟨compareEntries_eq_eq_iff hlen, ?_, ?_, ?_, compareEntries_swap v w⟩
  · rw [compareEntries_eq_iff (by simp) hlen]
    simp only [Fraction.compare_eq_ok_iff, compare_lt_iff_lt]
  · rw [compareEntries_eq_iff (by simp) hlen]
    simp only [Fraction.compare_eq_ok_iff, compare_gt_iff_gt]
  · rw [compareEntries_eq_iff (by simp) hlen]
    simp only [Fraction.compare_eq_overflow_iff]

/-- A chain of vectors, two of which end with entries that cannot be compared; vectors that begin
with such entries; and the norms of vectors of different lengths. -/
theorem orders_exact_of_chain :
    let x : Fraction := ⟨9223372036854775807, 2, by decide, by decide, by decide⟩
    let y : Fraction := ⟨2, 1, by decide, by decide, by decide⟩
    let v : Vec := [1, 1, x]
    let w : Vec := [1, y, x]
    v.length = w.length ∧ lexCompare v w = .ok .lt ∧
      (∃ k a b, ComparesAt v w k a b ∧ a.Comparable b ∧ a.toRat < b.toRat) ∧
      lexCompare w v = .ok .gt ∧ lexCompare w [y, 0, 0] = .ok .lt ∧
      (lexCompare v [y, 0, 0] = .ok .lt ∨ lexCompare v [y, 0, 0] = .error .overflow) ∧
      [x, 1].length = [x, y].length ∧ lexCompare [x, 1] [x, y] = .error .overflow ∧
      normCompare [1, y] [y] = .ok .gt ∧ .gt = Ord.compare (normSq [1, y]) (normSq [y]) ∧
      normCompare [y] [1, y] = .ok .lt ∧ normCompare v [] = .error .overflow := by
  intro x y v w
  have hlen : v.length = w.length := by
    decide
  have hvw : lexCompare v w = .ok .lt := by
    decide +kernel
  have hwu : lexCompare w [y, 0, 0] = .ok .lt := by
    decide +kernel
  have hstart : [x, 1].length = [x, y].length := by
    decide
  have hnorm : normCompare [1, y] [y] = .ok .gt := by
    decide +kernel
  obtain ⟨e, he⟩ : ∃ e, normCompare v [] = .error e := ⟨.overflow, by decide +kernel⟩
  obtain ⟨hlex, htrans, -⟩ := orders_exact v w [y, 0, 0]
  obtain ⟨-, hlt, -, -, hswap⟩ := hlex hlen
  obtain ⟨hlex', -⟩ := orders_exact [x, 1] [x, y] []
  obtain ⟨-, -, -, hoverflow, -⟩ := hlex' hstart
  obtain ⟨-, -, -, horder, hreversed⟩ := orders_exact [1, y] [y] []
  obtain ⟨-, -, hfails, -⟩ := orders_exact v [] []
  have hlarge : normCompare v [] = .error .overflow := by
    rw [he, hfails e he]
  rw [hvw] at hswap
  rw [hnorm] at hreversed
  have hx : ComparesAt [x, 1] [x, y] 0 x x := comparesAt_cons_zero.2 ⟨rfl, rfl⟩
  exact ⟨hlen, hvw, hlt.1 hvw, hswap, hwu, htrans hvw hwu, hstart,
    hoverflow.2 ⟨0, x, x, hx, by decide⟩, hnorm, horder _ hnorm, hreversed, hlarge⟩

end Vec

end ExactLinAlg
