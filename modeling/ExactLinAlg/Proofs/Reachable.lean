import ExactLinAlg.Mat.Command
import ExactLinAlg.Proofs.Inverse
import ExactLinAlg.Random.Entries
import ExactLinAlg.Random.Unimodular
import ExactLinAlg.Vec.Command

/-!
# The matrices and vectors that can be reached

`Mat.Reachable` holds of the matrices that commands lead to from a constructor; `Command.after` is
the matrix after one command, which is the one before it if the command fails. Every command keeps
the rows in agreement with the dimensions (`Mat.Command.ends_run`), so every reachable matrix is
well formed. A vector has no dimensions beside its entries; there the commands that work in place
keep the length (`Vec.Command.length_after`), also on a part of the vector.
-/

namespace ExactLinAlg

/-! ## Constructions with a state -/

section Stateful

variable {σ α β : Type} {f : α → StateM σ β}

theorem length_run_mapM (l : List α) (s : σ) : ((l.mapM f).run s).1.length = l.length := by
  induction l generalizing s with
  | nil => rfl
  | cons a l ih =>
    rw [List.mapM_cons]
    exact congrArg Nat.succ (ih _)

theorem forall_mem_run_mapM {P : β → Prop} {l : List α} (h : ∀ a ∈ l, ∀ s, P ((f a).run s).1)
    (s : σ) : ∀ b ∈ ((l.mapM f).run s).1, P b := by
  induction l generalizing s with
  | nil =>
    intro b hb
    cases hb
  | cons a l ih =>
    rw [List.mapM_cons]
    intro b hb
    rcases List.mem_cons.1 hb with rfl | hb
    · exact h a List.mem_cons_self s
    · exact ih (fun c hc => h c (List.mem_cons_of_mem a hc)) _ b hb

end Stateful

namespace Mat

theorem wellFormed_buildM {σ : Type} (rows cols : ℕ) (f : ℕ → ℕ → StateM σ Fraction) (s : σ) :
    ((buildM rows cols f).run s).1.WellFormed := by
  constructor
  · exact (length_run_mapM _ s).trans List.length_range
  · apply forall_mem_run_mapM
    intro i _ s
    exact (length_run_mapM _ s).trans List.length_range

theorem wellFormed_randomUnimodular (size : ℕ) (stream : WordStream) :
    ((randomUnimodular size).run stream).1.WellFormed := by
  have hlen := length_run_mapM (f := Border.draw) (List.range size) stream
  rw [List.length_range] at hlen
  constructor
  · exact (List.length_map _).trans hlen
  · intro row hrow
    obtain ⟨left, -, rfl⟩ := List.mem_map.1 hrow
    exact (List.length_map _).trans hlen

/-- A matrix that a constructor gives. -/
inductive Constructed : Mat → Prop
  | zeros (rows cols : ℕ) : Constructed (zeros rows cols)
  | identity (size : ℕ) : Constructed (identity size)
  | build (rows cols : ℕ) (f : ℕ → ℕ → Fraction) : Constructed (build rows cols f)
  /-- The entries may be computed from a state that is passed on from one to the next. -/
  | buildM {σ : Type} (rows cols : ℕ) (f : ℕ → ℕ → StateM σ Fraction) (s : σ) :
    Constructed ((buildM rows cols f).run s).1
  | ofRows {data : List Vec} {m : Mat} (h : ofRows data = .ok m) : Constructed m
  | ofInts {data : List (List Int64)} {m : Mat} (h : ofInts data = .ok m) : Constructed m
  | random (rows cols : ℕ) (bound : UInt32) (stream : WordStream) :
    Constructed ((random rows cols bound).run stream).1
  | randomUnimodular (size : ℕ) (stream : WordStream) :
    Constructed ((randomUnimodular size).run stream).1

theorem Constructed.wellFormed {m : Mat} (h : Constructed m) : m.WellFormed := by
  cases h with
  | zeros rows cols => exact wellFormed_zeros rows cols
  | identity size => exact wellFormed_identity size
  | build rows cols f => exact wellFormed_build rows cols f
  | buildM rows cols f s => exact wellFormed_buildM rows cols f s
  | ofRows h => exact wellFormed_of_ofRows h
  | ofInts h =>
    obtain ⟨rows, -, h⟩ := bind_eq_ok_iff.1 h
    exact wellFormed_of_ofRows h
  | random rows cols bound stream => exact wellFormed_buildM rows cols _ stream
  | randomUnimodular size stream => exact wellFormed_randomUnimodular size stream

/-! ## Commands on matrices -/

theorem WellFormed.of_gauss {m n : Mat} (hm : m.WellFormed) {full : Bool} {pivots : List ℕ}
    (h : (m.gauss full).outcome = .ok (pivots, n)) : n.WellFormed :=
  ((ends_gauss hm full).of_ok h).1.wellFormed.main

theorem WellFormed.of_inverse {m n : Mat} (hm : m.WellFormed) (h : m.inverse.outcome = .ok n) :
    n.WellFormed := by
  have hsquare : m.rows = m.cols := by
    obtain ⟨_, hcheck, -⟩ := Traced.outcome_bind_eq_ok_iff.1 h
    exact checkSquare_eq_ok_iff.1 hcheck
  exact ((ends_inverse hm rfl hsquare.symm).of_ok h).1

namespace Command

/-- The matrices that a command uses besides the current one. -/
def operands : Command → List Mat
  | mul right _ => [right]
  | mulLeft left _ => [left]
  | hstack right _ => [right]
  | _ => []

/-- The current matrix after a command. -/
def after (m : Mat) (c : Command) : Mat := next m (c.run m).outcome

variable {m : Mat} (hm : m.WellFormed)
include hm

/-- A command that only answers. -/
theorem ends_query {α : Type} (x : Traced α) (answer : α → Answer) :
    Ends Error.Any (fun r => r.2.WellFormed) (x >>= fun a => pure (answer a, m)).outcome :=
  Traced.ends_bind (Ends.trivial x.outcome) fun _ _ => hm

theorem wellFormed_keeping {n : Mat} (hn : n.WellFormed) (keep : Bool) :
    (keeping m keep n).2.WellFormed := by
  cases keep with
  | false => exact hm
  | true => exact hn

/-- One command. -/
theorem ends_run (c : Command) (hops : ∀ n ∈ c.operands, n.WellFormed) :
    Ends Error.Any (fun r => r.2.WellFormed) (c.run m).outcome := by
  cases c with
  | describe => exact hm
  | get i j => exact ends_query hm _ _
  | entry i j => exact ends_query hm _ _
  | set i j x =>
    apply Traced.ends_bind (Ends.of_results fun n hn => hm.of_set hn)
    intro n hn
    exact hn.1
  | row i => exact ends_query hm _ _
  | setRow i values =>
    apply Traced.ends_bind (Ends.of_results fun r hr => hm.of_setRow hr)
    intro r hr
    exact hr.1
  | replaceRows data =>
    apply Traced.ends_bind (Ends.of_results fun r hr => wellFormed_of_replaceRows hr)
    intro r hr
    exact hr.1
  | mulVec v => exact ends_query hm _ _
  | solve b => exact ends_query hm _ _
  | determinant => exact ends_query hm _ _
  | rank => exact ends_query hm _ _
  | gauss full =>
    apply Traced.ends_bind (Ends.of_results fun r hr => hm.of_gauss hr)
    intro r hr
    exact hr
  | text => exact hm
  | equal other => exact hm
  | rowOp op =>
    apply Traced.ends_bind (Ends.of_results fun n hn => RowOp.wellFormed_of_apply hm hn)
    intro n hn
    exact hn.1
  | mul right keep =>
    apply Traced.ends_bind (Ends.of_results fun n hn => hm.of_mul hn)
    intro n hn
    exact wellFormed_keeping hm hn.1 keep
  | mulLeft left keep =>
    have hleft := hops left List.mem_cons_self
    apply Traced.ends_bind (Ends.of_results fun n hn => hleft.of_mul hn)
    intro n hn
    exact wellFormed_keeping hm hn.1 keep
  | transposed keep => exact wellFormed_keeping hm (wellFormed_transposed m hm.length_data) keep
  | inverse keep =>
    apply Traced.ends_bind (Ends.of_results fun n hn => hm.of_inverse hn)
    intro n hn
    exact wellFormed_keeping hm hn keep
  | hstack right keep =>
    have hright := hops right List.mem_cons_self
    apply Traced.ends_bind (Ends.of_results fun n hn => hm.of_hstack hright hn)
    intro n hn
    exact wellFormed_keeping hm hn.1 keep

theorem wellFormed_after (c : Command) (hops : ∀ n ∈ c.operands, n.WellFormed) :
    (after m c).WellFormed := by
  have hrun := ends_run hm c hops
  unfold after next
  split
  · next h => exact hrun.of_ok h
  · exact hm

end Command

/-- The matrices that finitely many commands, some of which may fail, lead to from a constructor.
The operands of a command are such matrices themselves. -/
inductive Reachable : Mat → Prop
  | constructed {m : Mat} (h : Constructed m) : Reachable m
  | after {m : Mat} (c : Command) (hm : Reachable m) (hops : ∀ n ∈ c.operands, Reachable n) :
    Reachable (c.after m)

theorem Reachable.wellFormed {m : Mat} (h : Reachable m) : m.WellFormed := by
  induction h with
  | constructed h => exact h.wellFormed
  | after c _ _ ihm ihops => exact Command.wellFormed_after ihm c ihops

end Mat

/-! ## Commands on vectors -/

namespace Vec

theorem length_of_set {v w : Vec} {i : ℕ} {x : Fraction} (h : set v i x = .ok w) :
    w.length = v.length := by
  unfold set at h
  split at h
  · cases h
    exact List.length_set
  · cases h

theorem length_of_setEntry {v w : Vec} {i : ℕ} {x : Fraction} (h : setEntry v i x = .ok w) :
    w.length = v.length := by
  unfold setEntry at h
  split at h
  · cases h
    exact List.length_set
  · cases h

theorem length_of_slice {v u : Vec} {lo hi : ℕ} (h : slice v lo hi = .ok u) :
    lo ≤ hi ∧ hi ≤ v.length ∧ u.length = hi - lo := by
  unfold slice at h
  split at h
  · next hrange =>
    cases h
    refine ⟨hrange.1, hrange.2, ?_⟩
    rw [List.length_drop, List.length_take, Nat.min_eq_left hrange.2]
  · cases h

theorem length_splice {v u : Vec} {lo hi : ℕ} (hlo : lo ≤ hi) (hhi : hi ≤ v.length)
    (hu : u.length = hi - lo) : (splice v lo hi u).length = v.length := by
  rw [splice, List.length_append, List.length_append, List.length_take, List.length_drop, hu]
  omega

/-- A command that replaces the current vector by its result, if it succeeds. -/
def Action.replaces : Action → Bool
  | copy keep | add _ keep | sub _ keep | scale _ keep => keep
  | _ => false

/-- An effect on a part of length `n` that leaves the length of the vector. -/
def Effect.KeepsLength (n : ℕ) : Effect → Prop
  | unchanged => True
  | part value => value.length = n
  | whole _ => False

theorem Effect.length_applyTo {v : Vec} {lo hi : ℕ} {effect : Effect}
    (h : effect.KeepsLength (hi - lo)) (hlo : lo ≤ hi) (hhi : hi ≤ v.length) :
    (effect.applyTo v lo hi).length = v.length := by
  cases effect with
  | unchanged => rfl
  | part value => exact length_splice hlo hhi h
  | whole value => exact h.elim

theorem Action.ends_run (v : Vec) (a : Action) (h : a.replaces = false) :
    Ends Error.Any (fun r => r.2.KeepsLength v.length) (a.run v) := by
  cases a with
  | describe => trivial
  | elements => trivial
  | reversed => trivial
  | text => trivial
  | equal other => trivial
  | copy keep =>
    cases h
    trivial
  | get i => exact (Ends.trivial _).bind fun _ _ => trivial
  | entry i => exact (Ends.trivial _).bind fun _ _ => trivial
  | dot other => exact (Ends.trivial _).bind fun _ _ => trivial
  | lexCompare other => exact (Ends.trivial _).bind fun _ _ => trivial
  | normCompare other => exact (Ends.trivial _).bind fun _ _ => trivial
  | add other keep =>
    cases h
    exact (Ends.trivial _).bind fun _ _ => trivial
  | sub other keep =>
    cases h
    exact (Ends.trivial _).bind fun _ _ => trivial
  | scale factor keep =>
    cases h
    exact (Ends.trivial _).bind fun _ _ => trivial
  | set i x =>
    exact (Ends.of_results fun w hw => length_of_set hw).bind fun w hw => hw
  | setEntry i x =>
    exact (Ends.of_results fun w hw => length_of_setEntry hw).bind fun w hw => hw
  | addScaledInPlace factor other =>
    exact (Ends.of_results fun w hw => (length_of_combine hw).2).bind fun w hw => hw
  | scaleInPlace factor =>
    exact (Ends.of_results fun w hw => length_of_scale hw).bind fun w hw => hw

namespace Command

/-- The current vector after a command. -/
def after (v : Vec) (c : Command) : Vec := next v (c.run v)

/-- In-place commands keep the length of the vector, and so do failures. -/
theorem length_after (v : Vec) (c : Command) (h : c.action.replaces = false) :
    (after v c).length = v.length := by
  have hrun : Ends Error.Any (fun r => r.2.length = v.length) (c.run v) := by
    apply (Ends.of_results fun u hu => length_of_slice hu).bind
    intro part hpart
    obtain ⟨hlo, hhi, hlen⟩ := hpart
    apply (c.action.ends_run part h).bind
    intro r hr
    rw [hlen] at hr
    exact Effect.length_applyTo hr hlo hhi
  unfold after next
  split
  · next h => exact hrun.of_ok h
  · rfl

/-- A run of in-place commands. -/
theorem length_foldl_after {cs : List Command} (h : ∀ c ∈ cs, c.action.replaces = false) (v : Vec) :
    (cs.foldl after v).length = v.length := by
  induction cs generalizing v with
  | nil => rfl
  | cons c cs ih =>
    rw [List.foldl_cons, ih fun d hd => h d (List.mem_cons_of_mem c hd)]
    exact length_after v c (h c List.mem_cons_self)

end Command

end Vec

/-! ## The invariant -/

/-- **The representation invariant.** The rows of a matrix agree with its dimensions after every run
of commands from a constructor, with failures anywhere in it, and its entries are in canonical form.
So are the entries of a vector after every run of commands, and a run of in-place commands keeps the
length of the vector. -/
theorem representation_invariant :
    (∀ m : Mat, m.Reachable → m.data.length = m.rows ∧ (∀ row ∈ m.data, row.length = m.cols) ∧
      ∀ row ∈ m.data, ∀ x ∈ row, Fraction.Canonical x.num x.den) ∧
    ∀ (v : Vec) (cs : List Vec.Command),
      (∀ x ∈ cs.foldl Vec.Command.after v, Fraction.Canonical x.num x.den) ∧
      ((∀ c ∈ cs, c.action.replaces = false) →
        (cs.foldl Vec.Command.after v).length = v.length) := by
  refine ⟨?_, ?_⟩
  · intro m hm
    have hwf := hm.wellFormed
    exact ⟨hwf.length_data, hwf.length_row, fun _ _ x _ => x.canonical⟩
  · intro v cs
    exact ⟨fun x _ => x.canonical, fun h => Vec.Command.length_foldl_after h v⟩

/-- A matrix without rows is transposed, an exchange of rows fails, and columns are added; a vector
is changed in a part of it, and then not at all. -/
theorem representation_invariant_through_failures :
    let m := Mat.Command.after (Mat.Command.after (Mat.Command.after (Mat.zeros 0 3)
      (.transposed true)) (.rowOp (.swap 0 7))) (.hstack (Mat.identity 3) true)
    let cs : List Vec.Command := [⟨some (1, 2), .scaleInPlace 0⟩, ⟨none, .set 5 0⟩]
    m.Reachable ∧ m = Mat.identity 3 ∧ m.data.length = m.rows ∧
      (∀ row ∈ m.data, row.length = m.cols) ∧
      cs.foldl Vec.Command.after [1, 1] = [1, 0] ∧
      (cs.foldl Vec.Command.after [1, 1]).length = 2 := by
  intro m cs
  have hzeros : (Mat.zeros 0 3).Reachable := .constructed (.zeros 0 3)
  have hidentity : (Mat.identity 3).Reachable := .constructed (.identity 3)
  have hm : m.Reachable := by
    apply Mat.Reachable.after _ (.after _ (.after _ hzeros ?_) ?_)
    · intro n hn
      cases List.mem_singleton.1 hn
      exact hidentity
    · intro n hn
      cases hn
    · intro n hn
      cases hn
  have hmatrix := representation_invariant.1 m hm
  have hvector := representation_invariant.2 [1, 1] cs
  refine ⟨hm, by decide +kernel, hmatrix.1, hmatrix.2.1, by decide +kernel, hvector.2 ?_⟩
  decide

end ExactLinAlg
