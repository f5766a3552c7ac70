import ExactLinAlg.Proofs.Reachable
import ExactLinAlg.Vec.InPlace

/-!
# Updates of a part of a vector in place

An update in place computes all new entries of a range before it writes the first of them, and it
computes as many as the range has positions. So it comes out as the computation of the new entries
does (`Vec.InPlace.run_update`): it puts them between the entries before and after the range, or it
fails and leaves the vector. The entries that the addition of a multiple computes in one pass are
those of two passes, the multiple first and then the sum (`Vec.addScaled_eq_ok_iff`).
-/

namespace ExactLinAlg

/-- A pass over pairs that begins with a computation from the second elements is two passes, the
first of them over the second elements alone. -/
theorem mapM_zip_bind_eq_ok_iff {α β γ δ : Type} {f : β → Except Error γ}
    {g : α → γ → Except Error δ} {l : List α} {l' : List β} {r : List δ}
    (hlen : l.length = l'.length) :
    (l.zip l').mapM (fun p => f p.2 >>= g p.1) = .ok r ↔
      ∃ s, l'.mapM f = .ok s ∧ (l.zip s).mapM (fun p => g p.1 p.2) = .ok r := by
  induction l generalizing l' r with
  | nil =>
    rw [List.eq_nil_of_length_eq_zero hlen.symm]
    exact ⟨fun h => ⟨[], rfl, h⟩, fun ⟨_, _, h⟩ => h⟩
  | cons a l ih =>
    obtain _ | ⟨b, l'⟩ := l'
    · cases hlen
    · have ih := fun r => ih (r := r) (Nat.succ.inj hlen)
      rw [List.zip_cons_cons, mapM_cons_eq_ok_iff]
      constructor
      · rintro ⟨d, r, hd, hr, rfl⟩
        obtain ⟨c, hc, hd⟩ := bind_eq_ok_iff.1 hd
        obtain ⟨s, hs, hr⟩ := (ih r).1 hr
        exact ⟨c :: s, mapM_cons_eq_ok_iff.2 ⟨c, s, hc, hs, rfl⟩,
          mapM_cons_eq_ok_iff.2 ⟨d, r, hd, hr, rfl⟩⟩
      · rintro ⟨_, hfirst, hsecond⟩
        obtain ⟨c, s, hc, hs, rfl⟩ := mapM_cons_eq_ok_iff.1 hfirst
        obtain ⟨d, r, hd, hr, rfl⟩ := mapM_cons_eq_ok_iff.1 hsecond
        exact ⟨d, r, bind_eq_ok_iff.2 ⟨c, hc, hd⟩, (ih r).2 ⟨s, hs, hr⟩, rfl⟩

namespace Vec

variable {v w part u n : Vec} {lo hi : ℕ} {factor : Fraction} {e : Error}

/-- The sum with a multiple, computed in one pass, is that of two passes, and it overflows where one
of them does. -/
theorem addScaled_eq_ok_iff (hlen : v.length = w.length) :
    addScaled v factor w = .ok u ↔ ∃ s, scale w factor = .ok s ∧ add v s = .ok u := by
  rw [addScaled, combine, checkDims, if_pos hlen]
  refine (mapM_zip_bind_eq_ok_iff hlen).trans (exists_congr fun s => ?_)
  -- The one pass multiplies by the factor from the left, the other one from the right.
  have hscale : scale w factor = w.mapM (Fraction.mul factor) := by
    rw [scale]
    congr 1
    funext b
    exact Fraction.mul_comm b factor
  rw [hscale]
  refine and_congr_right fun hs => ?_
  rw [add, combine, checkDims, if_pos (hlen.trans (length_of_mapM hs).symm)]
  rfl

/-- The entries do not cause a mismatch. -/
theorem addScaled_eq_mismatch_iff {expected got : ℕ} :
    addScaled v factor w = .error (.dimensionMismatch expected got) ↔
      v.length ≠ w.length ∧ expected = v.length ∧ got = w.length := by
  by_cases hlen : v.length = w.length
  · refine ⟨fun h => ?_, fun h => absurd hlen h.1⟩
    exact nomatch (ends_addScaled factor hlen).of_error h
  · have hrun : addScaled v factor w = .error (.dimensionMismatch v.length w.length) := by
      rw [addScaled, combine, checkDims, if_neg hlen]
      rfl
    rw [hrun]
    constructor
    · rintro ⟨⟩
      exact ⟨hlen, rfl, rfl⟩
    · rintro ⟨-, rfl, rfl⟩
      rfl

/-! ## Ranges -/

theorem slice_eq_ok_iff :
    slice v lo hi = .ok part ↔ lo ≤ hi ∧ hi ≤ v.length ∧ part = (v.take hi).drop lo := by
  unfold slice
  split
  · next h =>
    rw [Except.ok.injEq, eq_comm]
    exact ⟨fun hpart => ⟨h.1, h.2, hpart⟩, fun hpart => hpart.2.2⟩
  · next h => exact ⟨nofun, fun hpart => absurd ⟨hpart.1, hpart.2.1⟩ h⟩

/-- A vector is put together from a part and the entries around it. -/
theorem splice_slice (h : slice v lo hi = .ok part) : splice v lo hi part = v := by
  obtain ⟨hlo, -, rfl⟩ := slice_eq_ok_iff.1 h
  have htake : v.take lo = (v.take hi).take lo := by rw [List.take_take, Nat.min_eq_left hlo]
  rw [splice, htake, List.take_append_drop, List.take_append_drop]

/-- The entries around a part stay when it is replaced by one of its length. -/
theorem getElem?_splice (hlo : lo ≤ hi) (hhi : hi ≤ v.length) (hu : u.length = hi - lo) {i : ℕ}
    (hi' : i < lo ∨ hi ≤ i) : (splice v lo hi u)[i]? = v[i]? := by
  have hfront : (v.take lo).length = lo := List.length_take_of_le (hlo.trans hhi)
  have hback : (v.take lo ++ u).length = hi := by rw [List.length_append, hfront, hu]; omega
  rcases hi' with hlt | hle
  · rw [splice, List.append_assoc, List.getElem?_append_left (hfront.symm ▸ hlt),
      List.getElem?_take_of_lt hlt]
  · rw [splice, List.getElem?_append_right (hback.symm ▸ hle), hback, List.getElem?_drop,
      Nat.add_sub_cancel' hle]

namespace InPlace

/-- The entries of `old` are overwritten one after the other, those of `front` already are. -/
theorem run_forM_set (values rest : Vec) :
    ∀ front old : Vec, values.length = old.length →
      ((values.zipIdx front.length).forM fun entry =>
          (modify (List.set · entry.2 entry.1) : InPlace Unit)).run (front ++ old ++ rest) =
        .ok () (front ++ values ++ rest) := by
  induction values with
  | nil =>
    intro front old hlen
    rw [List.eq_nil_of_length_eq_zero hlen.symm]
    rfl
  | cons x values ih =>
    intro front old hlen
    obtain _ | ⟨y, old⟩ := old
    · cases hlen
    · have hset : List.set (front ++ y :: old ++ rest) front.length x =
          front ++ [x] ++ old ++ rest := by
        rw [List.append_assoc, List.set_append_right _ _ le_rfl, Nat.sub_self, List.cons_append,
          List.set_cons_zero, List.append_assoc, List.append_assoc, List.singleton_append]
      have hrest := ih (front ++ [x]) old (Nat.succ.inj hlen)
      rw [← hset, List.length_append, List.append_assoc front [x] values] at hrest
      rw [List.zipIdx_cons]
      exact hrest

theorem run_overwrite (hpart : slice v lo hi = .ok part) (hlen : u.length = part.length) :
    (overwrite lo hi u).run v = .ok () (splice v lo hi u) := by
  obtain ⟨hlo, hhi, hpartlen⟩ := length_of_slice hpart
  have hrun := run_forM_set u (v.drop hi) (v.take lo) part hlen
  rw [List.length_take_of_le (hlo.trans hhi)] at hrun
  have hv : v.take lo ++ part ++ v.drop hi = v := splice_slice hpart
  rw [hv] at hrun
  rw [overwrite, if_pos (hlen.trans hpartlen)]
  exact hrun

/-! ## Updates -/

section Update

variable {f : Vec → Except Error Vec} (hf : ∀ {part u}, f part = .ok u → u.length = part.length)
include hf

/-- An update that computes as many entries as it is given comes out as on a value, and a failure
has changed nothing. -/
theorem run_update :
    (update lo hi f).run v =
      match slice v lo hi >>= f with
      | .ok u => .ok () (splice v lo hi u)
      | .error e => .error e v := by
  show (ofExcept (slice v lo hi) >>= fun part => ofExcept (f part) >>= overwrite lo hi :
    InPlace Unit).run v = _
  cases hpart : slice v lo hi with
  | error e => rfl
  | ok part =>
    show (ofExcept (f part) >>= overwrite lo hi : InPlace Unit).run v = match f part with
      | .ok u => .ok () (splice v lo hi u)
      | .error e => .error e v
    cases hu : f part with
    | error e => rfl
    | ok u => exact run_overwrite hpart (hf hu)

theorem run_update_eq_ok_iff (hpart : slice v lo hi = .ok part) :
    (update lo hi f).run v = .ok () n ↔ ∃ u, f part = .ok u ∧ n = splice v lo hi u := by
  rw [run_update hf, hpart]
  show (match f part with
    | .ok u => .ok () (splice v lo hi u)
    | .error e => .error e v : EStateM.Result Error Vec Unit) = .ok () n ↔ _
  cases f part with
  | error e =>
    constructor
    · rintro ⟨⟩
    · rintro ⟨_, ⟨⟩, _⟩
  | ok u =>
    constructor
    · rintro ⟨⟩
      exact ⟨u, rfl, rfl⟩
    · rintro ⟨_, ⟨⟩, rfl⟩
      rfl

theorem run_update_eq_error_iff :
    (update lo hi f).run v = .error e n ↔ (slice v lo hi >>= f) = .error e ∧ n = v := by
  rw [run_update hf]
  cases slice v lo hi >>= f with
  | ok u => exact ⟨nofun, nofun⟩
  | error e' =>
    constructor
    · rintro ⟨⟩
      exact ⟨rfl, rfl⟩
    · rintro ⟨⟨⟩, rfl⟩
      rfl

/-- What an update leaves as it was. -/
theorem frame_of_update (h : (update lo hi f).run v = .ok () n) :
    n.length = v.length ∧ ∀ i, i < lo ∨ hi ≤ i → n[i]? = v[i]? := by
  cases hpart : slice v lo hi with
  | error e =>
    have herror : (update lo hi f).run v = .error e v :=
      (run_update_eq_error_iff hf).2 ⟨by rw [hpart]; rfl, rfl⟩
    exact nomatch h.symm.trans herror
  | ok part =>
    obtain ⟨u, hu, rfl⟩ := (run_update_eq_ok_iff hf hpart).1 h
    obtain ⟨hlo, hhi, hlen⟩ := length_of_slice hpart
    have hulen : u.length = hi - lo := (hf hu).trans hlen
    exact ⟨length_splice hlo hhi hulen, fun i hi' => getElem?_splice hlo hhi hulen hi'⟩

theorem asCommand_update :
    asCommand (update lo hi f) v = do
      let part ← slice v lo hi
      let u ← f part
      return (.done, splice v lo hi u) := by
  rw [asCommand, run_update hf, ← bind_assoc]
  cases slice v lo hi >>= f <;> rfl

end Update

/-! ## The two updates -/

variable {p : InPlace Unit}

theorem length_of_addScaled (h : Vec.addScaled part factor w = .ok u) : u.length = part.length :=
  (length_of_combine h).2

/-- Both updates compute as many entries as the range has. -/
theorem exists_eq_update (hp : p ∈ [addScaled lo hi factor w, scale lo hi factor]) :
    ∃ f : Vec → Except Error Vec, (∀ {part u}, f part = .ok u → u.length = part.length) ∧
      p = update lo hi f := by
  rcases List.mem_pair.1 hp with rfl | rfl
  · exact ⟨(Vec.addScaled · factor w), length_of_addScaled, rfl⟩
  · exact ⟨(Vec.scale · factor), length_of_scale, rfl⟩

theorem run_addScaled_eq_mismatch_iff (hpart : slice v lo hi = .ok part) {expected got : ℕ} :
    (addScaled lo hi factor w).run v = .error (.dimensionMismatch expected got) n ↔
      (part.length ≠ w.length ∧ expected = part.length ∧ got = w.length) ∧ n = v := by
  rw [addScaled, run_update_eq_error_iff length_of_addScaled, hpart]
  exact and_congr_left' addScaled_eq_mismatch_iff

theorem run_addScaled_eq_ok_iff (hpart : slice v lo hi = .ok part) (hlen : part.length = w.length) :
    (addScaled lo hi factor w).run v = .ok () n ↔
      ∃ s u, Vec.scale w factor = .ok s ∧ add part s = .ok u ∧ n = splice v lo hi u := by
  rw [addScaled, run_update_eq_ok_iff length_of_addScaled hpart]
  constructor
  · rintro ⟨u, hu, rfl⟩
    obtain ⟨s, hs, hsum⟩ := (addScaled_eq_ok_iff hlen).1 hu
    exact ⟨s, u, hs, hsum, rfl⟩
  · rintro ⟨s, u, hs, hsum, rfl⟩
    exact ⟨u, (addScaled_eq_ok_iff hlen).2 ⟨s, hs, hsum⟩, rfl⟩

end InPlace

/-- **Updates of a part in place.** On a range within the vector, the addition of a multiple of `w`
fails with a dimension mismatch, which names both lengths, just if `w` has another length than the
range. Otherwise it succeeds just if the multiple and its sum with the part do, and puts the sum in
the place of the part; so does the multiplication by a factor with the product. Another range is out
of range. Nothing changes outside of the range, nor anywhere if an update fails, and both are the
commands of these names. -/
theorem inPlace_updates (v : Vec) (lo hi : ℕ) (factor : Fraction) (w : Vec) :
    (lo ≤ hi ∧ hi ≤ v.length →
      (∀ expected got n, (InPlace.addScaled lo hi factor w).run v =
          .error (.dimensionMismatch expected got) n ↔
        w.length ≠ hi - lo ∧ expected = hi - lo ∧ got = w.length ∧ n = v) ∧
      (w.length = hi - lo → ∀ n, (InPlace.addScaled lo hi factor w).run v = .ok () n ↔
        ∃ s u, scale w factor = .ok s ∧ add ((v.take hi).drop lo) s = .ok u ∧
          n = v.take lo ++ u ++ v.drop hi) ∧
      ∀ n, (InPlace.scale lo hi factor).run v = .ok () n ↔
        ∃ u, scale ((v.take hi).drop lo) factor = .ok u ∧ n = v.take lo ++ u ++ v.drop hi) ∧
    (∀ p ∈ [InPlace.addScaled lo hi factor w, InPlace.scale lo hi factor],
      (¬(lo ≤ hi ∧ hi ≤ v.length) → p.run v = .error .outOfRange v) ∧
      (∀ e n, p.run v = .error e n → n = v) ∧
      ∀ n, p.run v = .ok () n →
        n.length = v.length ∧ ∀ i, i < lo ∨ hi ≤ i → n[i]? = v[i]?) ∧
    Command.run v ⟨some (lo, hi), .addScaledInPlace factor w⟩ =
      InPlace.asCommand (InPlace.addScaled lo hi factor w) v ∧
    Command.run v ⟨some (lo, hi), .scaleInPlace factor⟩ =
      InPlace.asCommand (InPlace.scale lo hi factor) v := by
  refine ⟨?_, ?_, ?_, ?_⟩
  · rintro ⟨hlo, hhi⟩
    have hpart : slice v lo hi = .ok ((v.take hi).drop lo) := slice_eq_ok_iff.2 ⟨hlo, hhi, rfl⟩
    have hlen : ((v.take hi).drop lo).length = hi - lo := (length_of_slice hpart).2.2
    refine ⟨?_, ?_, ?_⟩
    · intro expected got n
      rw [InPlace.run_addScaled_eq_mismatch_iff hpart, hlen, ne_comm]
      simp only [and_assoc]
    · intro hw n
      exact InPlace.run_addScaled_eq_ok_iff hpart (hlen.trans hw.symm)
    · intro n
      exact InPlace.run_update_eq_ok_iff length_of_scale hpart
  · intro p hp
    obtain ⟨f, hf, rfl⟩ := InPlace.exists_eq_update hp
    refine ⟨fun hrange => ?_, fun e n h => ?_, fun n h => InPlace.frame_of_update hf h⟩
    · apply (InPlace.run_update_eq_error_iff hf).2
      rw [slice, if_neg hrange]
      exact ⟨rfl, rfl⟩
    · exact ((InPlace.run_update_eq_error_iff hf).1 h).2
  · rw [InPlace.addScaled, InPlace.asCommand_update InPlace.length_of_addScaled]
    simp only [Command.run, Action.run, Effect.applyTo, Option.getD_some, bind_assoc, pure_bind]
  · rw [InPlace.scale, InPlace.asCommand_update length_of_scale]
    simp only [Command.run, Action.run, Effect.applyTo, Option.getD_some, bind_assoc, pure_bind]

/-- Updates in the middle of a vector: one that succeeds, one that overflows in its second entry,
one by a vector that is too short, and one on a range that reaches too far. -/
theorem inPlace_updates_of_middle :
    let x : Fraction := ⟨9223372036854775807, 1, Word.one_pos, by decide, by decide⟩
    let half : Fraction := ⟨1, 2, by decide, by decide, by decide⟩
    let y : Fraction := ⟨3, 2, by decide, by decide, by decide⟩
    let v : Vec := [1, 1, x, 1]
    (InPlace.addScaled 1 3 half [1, 0]).run v = .ok () [1, y, x, 1] ∧
      Command.run v ⟨some (1, 3), .addScaledInPlace half [1, 0]⟩ = .ok (.done, [1, y, x, 1]) ∧
      (InPlace.addScaled 1 3 1 [1, 1]).run v = .error .overflow v ∧
      Command.run v ⟨some (1, 3), .addScaledInPlace 1 [1, 1]⟩ = .error .overflow ∧
      (InPlace.addScaled 1 3 half [1]).run v = .error (.dimensionMismatch 2 1) v ∧
      (InPlace.addScaled 3 9 half [1]).run v = .error .outOfRange v ∧
      (InPlace.scale 0 2 half).run v = .ok () [half, half, x, 1] := by
  intro x half y v
  have hrange : 1 ≤ 3 ∧ 3 ≤ v.length := by decide
  have hlong : ¬(3 ≤ 9 ∧ 9 ≤ v.length) := by decide
  obtain ⟨hin, -, hcommand, -⟩ := inPlace_updates v 1 3 half [1, 0]
  have hsum : (InPlace.addScaled 1 3 half [1, 0]).run v = .ok () [1, y, x, 1] :=
    ((hin hrange).2.1 rfl _).2
      ⟨[half, 0], [y, x], by decide +kernel, by decide +kernel, rfl⟩
  obtain ⟨-, -, hcommand', -⟩ := inPlace_updates v 1 3 1 [1, 1]
  have hoverflow : (InPlace.addScaled 1 3 1 [1, 1]).run v = .error .overflow v :=
    (InPlace.run_update_eq_error_iff InPlace.length_of_addScaled).2 ⟨by decide +kernel, rfl⟩
  obtain ⟨hshort, -⟩ := inPlace_updates v 1 3 half [1]
  obtain ⟨-, hfar, -⟩ := inPlace_updates v 3 9 half [1]
  obtain ⟨hproduct, -⟩ := inPlace_updates v 0 2 half []
  refine ⟨hsum, ?_, hoverflow, ?_, ?_, ?_, ?_⟩
  · rw [hcommand, InPlace.asCommand, hsum]
  · rw [hcommand', InPlace.asCommand, hoverflow]
  · exact ((hshort hrange).1 2 1 v).2 ⟨by decide, rfl, rfl, rfl⟩
  · exact (hfar _ List.mem_cons_self).1 hlong
  · exact ((hproduct (by decide)).2.2 _).2 ⟨[half, half], by decide +kernel, rfl⟩

end Vec

end ExactLinAlg
