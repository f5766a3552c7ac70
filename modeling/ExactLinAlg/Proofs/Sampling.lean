import ExactLinAlg.Proofs.Reachable
import ExactLinAlg.Proofs.SmallNumbers
import Mathlib

/-!
# Sampling

Two words make one number below `2 ^ 128`, which is scaled to the range (`WordStream.select`). The
second word matters only if its product with the range carries into the lower half of the first one,
and it is left in the stream where it cannot (`WordStream.run_below`). So the parts of a random
fraction before reduction are known exactly (`Fraction.run_random`). They keep to the bound, and
lowest terms are the least ones.
-/

namespace ExactLinAlg

open WordStream

/-- A computation goes on from what its first part leaves. -/
theorem run_bind_of_run {σ α β : Type} {x : StateM σ α} {f : α → StateM σ β} {s t : σ} {a : α}
    (h : x.run s = (a, t)) : (x >>= f).run s = (f a).run t := by
  show (f (x.run s).1).run (x.run s).2 = _
  rw [h]

namespace WordStream

/-! ## Selecting a number -/

/-- Two numbers below `size`, taken together as one below its square and scaled to `range`. -/
def select (size range first second : ℕ) : ℕ := (first * size + second) * range / (size * size)

section Select

variable {size range first second : ℕ} (hsize : 0 < size) (hsecond : second < size)

include hsize in
/-- The upper half of the product with the first number, and the carry from the other half. -/
theorem select_eq : select size range first second =
    first * range / size + (first * range % size + second * range / size) / size := by
  have hfirst := Nat.div_add_mod (first * range) size
  have hsplit : (first * size + second) * range =
      second * range + size * (first * range % size) + size * size * (first * range / size) := by
    calc (first * size + second) * range = second * range + size * (first * range) := by ring
      _ = second * range + size * (size * (first * range / size) + first * range % size) := by
        rw [hfirst]
      _ = _ := by ring
  rw [select, hsplit, Nat.add_mul_div_left _ _ (Nat.mul_pos hsize hsize), ← Nat.div_div_eq_div_mul,
    Nat.add_mul_div_left _ _ hsize, Nat.add_comm, Nat.add_comm (second * range / size)]

include hsize in
theorem select_of_lt (h : first * range % size + second * range / size < size) :
    select size range first second = first * range / size := by
  rw [select_eq hsize, Nat.div_eq_of_lt h, Nat.add_zero]

include hsecond in
/-- The lower halves of two products carry at most once. -/
theorem select_of_le (hrange : 0 < range) (hle : range ≤ size)
    (h : size ≤ first * range % size + second * range / size) :
    select size range first second = first * range / size + 1 := by
  have hlower := Nat.mod_lt (first * range) (hrange.trans_le hle)
  have hupper : second * range / size < range := div_lt_of_draw hrange ⟨second, hsecond⟩
  have hone : (first * range % size + second * range / size) / size = 1 :=
    Nat.div_eq_of_lt_le (by omega) (by omega)
  rw [select_eq (hrange.trans_le hle), hone]

/-- The selected number is below the range. -/
theorem select_lt (hfirst : first < size) (hsecond : second < size) (hrange : 0 < range) :
    select size range first second < range := by
  have hsize : 0 < size := Nat.zero_lt_of_lt hfirst
  have hlt : first * size + second < size * size := by
    calc first * size + second < first * size + size := Nat.add_lt_add_left hsecond _
      _ = (first + 1) * size := by ring
      _ ≤ size * size := Nat.mul_le_mul_right size hfirst
  rw [select, Nat.div_lt_iff_lt_mul (Nat.mul_pos hsize hsize), Nat.mul_comm range]
  exact Nat.mul_lt_mul_of_pos_right hlt hrange

end Select

variable {size range : ℕ} {draw : StateM WordStream (Fin size)} {s t u : WordStream}

/-- A drawn number is selected by two others, of which the second one is not drawn where it cannot
carry into the first one. -/
theorem run_below (hrange : 0 < range) (hle : range ≤ size) {first second : Fin size}
    (hfirst : draw.run s = (first, t)) (hsecond : draw.run t = (second, u)) :
    ∃ n : Fin range, n.val = select size range first second ∧
      (below draw range hrange).run s =
        (n, if size - range < first.val * range % size then u else t) := by
  have hsize := hrange.trans_le hle
  have hupper := div_lt_of_draw hrange second
  rw [below, run_bind_of_run hfirst]
  by_cases hbias : size - range < first.val * range % size
  · rw [dif_pos hbias, run_bind_of_run hsecond, if_pos hbias]
    by_cases hcarry : size ≤ first.val * range % size + second.val * range / size
    · rw [if_pos hcarry, select_of_le second.isLt hrange hle hcarry]
      exact ⟨⟨_, succ_lt_of_carry hrange first hbias⟩, rfl, rfl⟩
    · rw [if_neg hcarry, select_of_lt hsize (not_le.1 hcarry)]
      exact ⟨⟨_, div_lt_of_draw hrange first⟩, rfl, rfl⟩
  -- The second number is not drawn, but it would not have carried.
  · rw [dif_neg hbias, if_neg hbias, select_of_lt hsize (by omega)]
    exact ⟨⟨_, div_lt_of_draw hrange first⟩, rfl, rfl⟩

/-! ## Words of the stream -/

/-- The stream after `n` more words. -/
def skip (n : ℕ) (s : WordStream) : WordStream := ⟨s.word, s.drawn + n⟩

/-- The number below `range` that the next two words select. -/
def sample (s : WordStream) (range : ℕ) : ℕ :=
  select UInt64.size range (s.word s.drawn).toNat (s.word (s.drawn + 1)).toNat

/-- How many of the two words are drawn to select the number. -/
def taken (s : WordStream) (range : ℕ) : ℕ :=
  if UInt64.size - range < (s.word s.drawn).toNat * range % UInt64.size then 2 else 1

/-- The stream behind the words that are drawn. -/
def rest (s : WordStream) (range : ℕ) : WordStream := s.skip (s.taken range)

theorem sample_lt (s : WordStream) {range : ℕ} (hrange : 0 < range) : s.sample range < range :=
  select_lt (s.word _).toNat_lt (s.word _).toNat_lt hrange

theorem taken_mem (s : WordStream) (range : ℕ) : 1 ≤ s.taken range ∧ s.taken range ≤ 2 := by
  unfold taken
  split <;> decide

theorem run_draw64 (s : WordStream) : draw64.run s = ((s.word s.drawn).toFin, s.skip 1) := rfl

/-- A drawn integer is selected by the next two words of the stream. -/
theorem run_between64 {low high : ℤ} (h : low ≤ high) (hsize : high - low < UInt64.size)
    (s : WordStream) :
    ∃ n : { n : ℤ // low ≤ n ∧ n ≤ high },
      n.val = low + s.sample (high - low + 1).toNat ∧
        (between draw64 low high h).run s = (n, s.rest (high - low + 1).toNat) := by
  have hrange : 0 < (high - low + 1).toNat := by omega
  obtain ⟨offset, hoffset, hrun⟩ :=
    run_below hrange (by omega) (run_draw64 s) (run_draw64 (s.skip 1))
  refine ⟨⟨low + offset, by omega⟩, congrArg (fun k : ℕ => low + (k : ℤ)) hoffset, ?_⟩
  rw [between, run_bind_of_run hrun]
  exact congrArg (Prod.mk _) (apply_ite s.skip _ 2 1).symm

/-- A computation takes from `low` to `high` words of every stream, and leaves the others. -/
def Takes {α : Type} (low high : ℕ) (x : StateM WordStream α) : Prop :=
  ∀ s, ∃ n, low ≤ n ∧ n ≤ high ∧ (x.run s).2 = s.skip n

namespace Takes

variable {α β : Type} {low high low' high' : ℕ} {x : StateM WordStream α}

theorem pure (a : α) : Takes 0 0 (pure a : StateM WordStream α) :=
  fun _ => ⟨0, le_rfl, le_rfl, rfl⟩

theorem bind {f : α → StateM WordStream β} (hx : Takes low high x)
    (hf : ∀ a, Takes low' high' (f a)) : Takes (low + low') (high + high') (x >>= f) := by
  intro s
  obtain ⟨n, hle, hle', hn⟩ := hx s
  obtain ⟨n', hlow, hhigh, hn'⟩ := hf (x.run s).1 (s.skip n)
  refine ⟨n + n', by omega, by omega, ?_⟩
  have hrun : x.run s = ((x.run s).1, s.skip n) := Prod.ext rfl hn
  rw [run_bind_of_run hrun, hn', skip, skip, Nat.add_assoc]
  rfl

theorem mapM {f : α → StateM WordStream β} (hf : ∀ a, Takes low high (f a)) (l : List α) :
    Takes (l.length * low) (l.length * high) (l.mapM f) := by
  induction l with
  | nil =>
    rw [List.length_nil, Nat.zero_mul, Nat.zero_mul]
    exact .pure _
  | cons a l ih =>
    rw [List.mapM_cons, List.length_cons, Nat.succ_mul, Nat.succ_mul, Nat.add_comm,
      Nat.add_comm (l.length * high)]
    exact (hf a).bind fun b => ih.bind fun bs => .pure _

end Takes

end WordStream

namespace Fraction

open WordStream

/-- The greatest numerator and denominator of a random fraction. -/
def limit (bound : UInt32) : ℕ := max bound.toNat 1

theorem limit_pos (bound : UInt32) : 0 < limit bound := lt_max_of_lt_right one_pos

theorem limit_lt (bound : UInt32) : limit bound < 2 ^ 32 :=
  max_lt bound.toNat_lt (by norm_num)

/-- A random fraction is the quotient of two selected numbers, the first one moved to be symmetric
about zero. -/
theorem run_random (bound : UInt32) (s : WordStream) :
    let t := s.rest (2 * limit bound + 1)
    ∃ a : Fraction, (Fraction.random bound).run s = (a, t.rest (limit bound)) ∧
      a.toRat = ((s.sample (2 * limit bound + 1) - limit bound : ℤ) : ℚ) /
        (t.sample (limit bound) + 1 : ℤ) := by
  intro t
  have hpos := limit_pos bound
  have hlt := limit_lt bound
  have hsize : UInt64.size = 2 ^ 64 := rfl
  have hlimit : max (bound.toNat : ℤ) 1 = limit bound := by rw [limit, Nat.cast_max, Nat.cast_one]
  have hnumle : -max (bound.toNat : ℤ) 1 ≤ max (bound.toNat : ℤ) 1 := by omega
  have hdenle : 1 ≤ max (bound.toNat : ℤ) 1 := by omega
  obtain ⟨num, hnum, hrunnum⟩ := run_between64 hnumle (by omega) s
  obtain ⟨den, hden, hrunden⟩ := run_between64 hdenle (by omega) t
  have hnumrange :
      (max (bound.toNat : ℤ) 1 - -max (bound.toNat : ℤ) 1 + 1).toNat = 2 * limit bound + 1 := by
    omega
  have hdenrange : (max (bound.toNat : ℤ) 1 - 1 + 1).toNat = limit bound := by omega
  rw [hnumrange] at hnum hrunnum
  rw [hdenrange] at hden hrunden
  have hrun : (Fraction.random bound).run s = _ :=
    (run_bind_of_run hrunnum).trans ((run_bind_of_run hrunden).trans rfl)
  refine ⟨_, hrun, ?_⟩
  have hnumber : (Int64.ofInt num.val).toInt = s.sample (2 * limit bound + 1) - limit bound := by
    rw [Word.toInt_ofInt_of_inRange (Word.inRange_iff.2 (by omega))]
    omega
  have hdivisor : (Int64.ofInt den.val).toInt = t.sample (limit bound) + 1 := by
    rw [Word.toInt_ofInt_of_inRange (Word.inRange_iff.2 (by omega))]
    omega
  rw [toRat_reduce, hnumber, hdivisor]

/-- A fraction as it can be drawn for a bound. -/
structure IsWithin (bound : UInt32) (a : Fraction) : Prop where
  canonical : Canonical a.num a.den
  num_le : |a.num.toInt| ≤ limit bound
  one_le_den : 1 ≤ a.den.toInt
  den_le : a.den.toInt ≤ limit bound

/-- Lowest terms are the least ones. -/
theorem isWithin_of_toRat_eq {bound : UInt32} {a : Fraction} {n d : ℤ} (h : a.toRat = n / d)
    (hn : |n| ≤ limit bound) (hd : 1 ≤ d) (hd' : d ≤ limit bound) : IsWithin bound a := by
  have hd₀ : (d : ℚ) ≠ 0 := by exact_mod_cast (zero_lt_one.trans_le hd).ne'
  have ha : AtMost (limit bound) a.toRat :=
    .of_mul_eq ((eq_div_iff hd₀).1 h) (by omega) hn ((abs_of_pos hd).trans_le hd')
  obtain ⟨hnum, hden⟩ := a.toRat_parts
  refine ⟨a.canonical, ?_, a.den_pos, ?_⟩
  · rw [← hnum]
    exact ha.num_le
  · rw [← hden]
    exact_mod_cast ha.den_le

theorem isWithin_random (bound : UInt32) (s : WordStream) :
    IsWithin bound ((Fraction.random bound).run s).1 := by
  have hpos := limit_pos bound
  obtain ⟨a, hrun, ha⟩ := run_random bound s
  have hnum : s.sample (2 * limit bound + 1) < 2 * limit bound + 1 :=
    s.sample_lt (Nat.succ_pos _)
  have hden := (s.rest (2 * limit bound + 1)).sample_lt hpos
  rw [hrun]
  exact isWithin_of_toRat_eq ha (abs_le.2 ⟨by omega, by omega⟩) (by omega) (by omega)

theorem takes_random (bound : UInt32) : Takes 2 4 (Fraction.random bound) := by
  intro s
  obtain ⟨a, hrun, -⟩ := run_random bound s
  have hnum := s.taken_mem (2 * limit bound + 1)
  have hden := (s.rest (2 * limit bound + 1)).taken_mem (limit bound)
  rw [hrun]
  refine ⟨s.taken (2 * limit bound + 1) + (s.rest (2 * limit bound + 1)).taken (limit bound),
    by omega, by omega, ?_⟩
  rw [rest, rest, skip, skip, skip, Nat.add_assoc]

end Fraction

theorem Vec.takes_random (n : ℕ) (bound : UInt32) : Takes (n * 2) (n * 4) (Vec.random n bound) := by
  have h := Takes.mapM (fun _ : ℕ => Fraction.takes_random bound) (List.range n)
  rwa [List.length_range] at h

theorem Mat.takes_random (rows cols : ℕ) (bound : UInt32) :
    Takes (rows * (cols * 2)) (rows * (cols * 4)) (Mat.random rows cols bound) := by
  have h := Takes.mapM (fun _ : ℕ => Vec.takes_random cols bound) (List.range rows)
  rw [List.length_range] at h
  exact h.bind fun data => .pure _

/-! ## Random values -/

/-- **Random values keep to their bound**, whatever the stream. A random fraction is the quotient of
two selected numbers, its parts are limited by the bound, or by one if the bound is zero, and it
takes from two to four words. So it is with the entries of a random vector and of a random
matrix. -/
theorem random_within_bound (bound : UInt32) (n rows cols : ℕ) (s : WordStream) :
    (((Fraction.random bound).run s).1.toRat =
          ((s.sample (2 * Fraction.limit bound + 1) - Fraction.limit bound : ℤ) : ℚ) /
            ((s.rest (2 * Fraction.limit bound + 1)).sample (Fraction.limit bound) + 1 : ℤ) ∧
        Fraction.IsWithin bound ((Fraction.random bound).run s).1 ∧
        Takes 2 4 (Fraction.random bound)) ∧
      (((Vec.random n bound).run s).1.length = n ∧
        (∀ a ∈ ((Vec.random n bound).run s).1, Fraction.IsWithin bound a) ∧
        Takes (n * 2) (n * 4) (Vec.random n bound)) ∧
      (((Mat.random rows cols bound).run s).1.WellFormed ∧
        ((Mat.random rows cols bound).run s).1.rows = rows ∧
        ((Mat.random rows cols bound).run s).1.cols = cols ∧
        (∀ row ∈ ((Mat.random rows cols bound).run s).1.data, ∀ a ∈ row,
          Fraction.IsWithin bound a) ∧
        Takes (rows * (cols * 2)) (rows * (cols * 4)) (Mat.random rows cols bound)) := by
  obtain ⟨a, hrun, ha⟩ := Fraction.run_random bound s
  have hvec (n : ℕ) (s : WordStream) :
      ∀ a ∈ ((Vec.random n bound).run s).1, Fraction.IsWithin bound a :=
    forall_mem_run_mapM (fun _ _ s => Fraction.isWithin_random bound s) s
  refine ⟨⟨?_, Fraction.isWithin_random bound s, Fraction.takes_random bound⟩,
    ⟨?_, hvec n s, Vec.takes_random n bound⟩,
    ⟨Mat.wellFormed_buildM rows cols _ s, rfl, rfl, ?_, Mat.takes_random rows cols bound⟩⟩
  · rw [hrun]
    exact ha
  · exact (length_run_mapM _ s).trans List.length_range
  · exact forall_mem_run_mapM (fun _ _ s => hvec cols s) s

/-- Both numbers need a second word. It carries into the first one where it is `2 ^ 63`, so that
`-3 / 1` becomes `-2 / 2`, and leaves it where it is zero. -/
example :
    let num : UInt64 := 0x2492492492492492
    let den : UInt64 := 0x5555555555555555
    let half : UInt64 := 0x8000000000000000
    let carries := (Fraction.random 3).run (.cycle #[num, half, den, half])
    let stays := (Fraction.random 3).run (.cycle #[num, 0, den, 0])
    carries.1 = -1 ∧ carries.2.drawn = 4 ∧ stays.1 = .ofInt32 (-3) ∧ stays.2.drawn = 4 := by
  decide +kernel

end ExactLinAlg
