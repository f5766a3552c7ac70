/-!
# The ways an operation can fail

An operation that can fail returns a value of `Except Error`, and a composite operation passes
on the first failure of its steps unchanged.
-/

namespace ExactLinAlg

/-- The causes of failure. -/
inductive Error where
  /-- A divisor, or the argument of a reciprocal, is zero. -/
  | divisionByZero
  /-- A numerator or a denominator does not fit into a word. The numerator `-2^63` counts as
  not fitting, so that the fractions are symmetric about zero. -/
  | overflow
  /-- A binary number to be converted is not a number. -/
  | notANumber
  /-- A binary number to be converted is infinite. -/
  | infinite
  /-- An operand has `got` entries or rows where `expected` are needed. -/
  | dimensionMismatch (expected got : Nat)
  /-- A checked access asks for position `index` among `length` positions. -/
  | indexOutOfBounds (index length : Nat)
  /-- An operation on square matrices is given one of another shape. -/
  | notSquare (rows cols : Nat)
  /-- A linear system has no unique solution, or a matrix no inverse. -/
  | singular
  /-- A position, row or range lies outside an operand and the operation leaves it to its
  caller to avoid that. -/
  | outOfRange
deriving DecidableEq, Repr

namespace Error

/-- The text that describes a failure to a reader. -/
def message : Error → String
  | divisionByZero => "division by zero"
  | overflow => "64-bit integer overflow"
  | notANumber => "cannot convert NaN to a rational"
  | infinite => "cannot convert an infinite value to a rational"
  | dimensionMismatch expected got => s!"dimension mismatch: expected {expected}, got {got}"
  | indexOutOfBounds index length => s!"index {index} out of bounds for length {length}"
  | notSquare rows cols => s!"matrix must be square, got {rows}x{cols}"
  | singular => "singular matrix encountered"
  | outOfRange => "position out of range"

end Error

/-- Succeeds when an operand has the expected number of entries or rows. -/
def checkDims (expected got : Nat) : Except Error Unit :=
  if expected = got then .ok () else .error (.dimensionMismatch expected got)

/-- Succeeds when `index` is one of `length` positions. -/
def checkIndex (index length : Nat) : Except Error Unit :=
  if index < length then .ok () else .error (.indexOutOfBounds index length)

@[simp] theorem checkDims_eq_ok_iff {expected got : Nat} {u : Unit} :
    checkDims expected got = .ok u ↔ expected = got := by
  unfold checkDims
  split <;> simp_all

@[simp] theorem checkIndex_eq_ok_iff {index length : Nat} {u : Unit} :
    checkIndex index length = .ok u ↔ index < length := by
  unfold checkIndex
  split <;> simp_all

/-- A sequence of two computations succeeds when both do. -/
theorem bind_eq_ok_iff {α β : Type} {x : Except Error α} {f : α → Except Error β} {b : β} :
    x >>= f = .ok b ↔ ∃ a, x = .ok a ∧ f a = .ok b := by
  cases x <;> simp [bind, Except.bind]

/-! ## One computation for each element of a list -/

section List

variable {α β : Type} {f : α → Except Error β}

theorem mapM_cons_eq_ok_iff {x : α} {l : List α} {r : List β} :
    (x :: l).mapM f = .ok r ↔ ∃ y ys, f x = .ok y ∧ l.mapM f = .ok ys ∧ r = y :: ys := by
  rw [List.mapM_cons, bind_eq_ok_iff]
  constructor
  · rintro ⟨y, hy, h⟩
    obtain ⟨ys, hys, h⟩ := bind_eq_ok_iff.1 h
    cases h
    exact ⟨y, ys, hy, hys, rfl⟩
  · rintro ⟨y, ys, hy, hys, rfl⟩
    exact ⟨y, hy, bind_eq_ok_iff.2 ⟨ys, hys, rfl⟩⟩

theorem length_of_mapM {l : List α} {r : List β} (h : l.mapM f = .ok r) :
    r.length = l.length := by
  induction l generalizing r with
  | nil =>
    cases h
    rfl
  | cons x l ih =>
    obtain ⟨y, ys, -, hys, rfl⟩ := mapM_cons_eq_ok_iff.1 h
    rw [List.length_cons, List.length_cons, ih hys]

/-- Every result comes from an element. -/
theorem exists_of_mem_mapM {l : List α} {r : List β} {y : β} (h : l.mapM f = .ok r)
    (hy : y ∈ r) : ∃ x ∈ l, f x = .ok y := by
  induction l generalizing r with
  | nil =>
    cases h
    cases hy
  | cons x l ih =>
    obtain ⟨z, zs, hz, hzs, rfl⟩ := mapM_cons_eq_ok_iff.1 h
    rcases List.mem_cons.1 hy with rfl | hmem
    · exact ⟨x, List.mem_cons_self, hz⟩
    · obtain ⟨w, hw, hf⟩ := ih hzs hmem
      exact ⟨w, List.mem_cons_of_mem x hw, hf⟩

/-- A check of every element succeeds when each check does. -/
theorem forM_eq_ok_iff {l : List α} {g : α → Except Error Unit} {u : Unit} :
    l.forM g = .ok u ↔ ∀ x ∈ l, g x = .ok () := by
  induction l with
  | nil => simp [List.forM, pure, Except.pure]
  | cons x l ih =>
    show (g x >>= fun _ => l.forM g) = .ok u ↔ _
    rw [bind_eq_ok_iff, List.forall_mem_cons, ← ih]
    exact ⟨fun ⟨_, hx, hl⟩ => ⟨hx, hl⟩, fun ⟨hx, hl⟩ => ⟨(), hx, hl⟩⟩

end List

end ExactLinAlg
