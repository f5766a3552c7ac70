import ExactLinAlg.Fraction.Basic

/-!
# Computations that leave a trace

Elimination reports what it does as a list of events. A `Traced` computation carries the events
so far beside its outcome, so the events before a failure are kept (`bind_of_error`).
-/

namespace ExactLinAlg

/-- What elimination reports. -/
inductive Event where
  /-- The largest absolute value of a column was found in some row. -/
  | selectedPivot (col row : Nat) (value : Fraction)
  /-- Two rows of a matrix are exchanged. -/
  | swapRows (i j : Nat)
  /-- A column without a pivot shows that a determinant is zero. -/
  | zeroDeterminant (col : Nat)
  /-- A column without a pivot shows that a system has no unique solution. -/
  | singularSystem (col : Nat)
  /-- A matrix of deficient rank has no inverse. -/
  | notInvertible (rank size : Nat)
deriving DecidableEq

namespace Event

/-- How much an event matters to a reader. -/
inductive Level where
  | trace
  | debug
deriving DecidableEq

/-- Steps of an elimination are traced; conclusions from a missing pivot are for debugging. -/
def level : Event → Level
  | selectedPivot .. | swapRows .. => .trace
  | zeroDeterminant .. | singularSystem .. | notInvertible .. => .debug

/-- The text of an event, without its data. -/
def message : Event → String
  | selectedPivot .. => "selected pivot"
  | swapRows .. => "swap rows"
  | zeroDeterminant .. => "no non-zero pivot, determinant is zero"
  | singularSystem .. => "no non-zero pivot, system is singular"
  | notInvertible .. => "matrix is not invertible"

end Event

/-- A computation that may fail, with the events that it reported. -/
structure Traced (α : Type) where
  events : List Event
  outcome : Except Error α

namespace Traced

/-- A computation without events. -/
def ofExcept {α : Type} (outcome : Except Error α) : Traced α := ⟨[], outcome⟩

/-- Reports one event. -/
def report (event : Event) : Traced Unit := ⟨[event], .ok ()⟩

/-- Fails without events. -/
def fail {α : Type} (e : Error) : Traced α := ⟨[], .error e⟩

instance : Monad Traced where
  pure a := ⟨[], .ok a⟩
  bind x f :=
    match x.outcome with
    | .ok a =>
      let y := f a
      ⟨x.events ++ y.events, y.outcome⟩
    | .error e => ⟨x.events, .error e⟩

instance : MonadLift (Except Error) Traced := ⟨ofExcept⟩

theorem ext_parts {α : Type} {x y : Traced α} (he : x.events = y.events)
    (ho : x.outcome = y.outcome) : x = y := by
  cases x
  cases y
  cases he
  cases ho
  rfl

/-! ## Events and outcomes of composite computations -/

section Bind

variable {α β : Type} {x : Traced α} {f : α → Traced β}

@[simp] theorem events_pure (a : α) : (pure a : Traced α).events = [] := rfl

@[simp] theorem outcome_bind : (x >>= f).outcome = x.outcome >>= fun a => (f a).outcome := by
  rcases x with ⟨events, _ | a⟩ <;> rfl

theorem bind_of_ok {a : α} (h : x.outcome = .ok a) :
    x >>= f = ⟨x.events ++ (f a).events, (f a).outcome⟩ := by
  rcases x with ⟨events, _ | b⟩ <;> cases h
  rfl

theorem bind_of_error {e : Error} (h : x.outcome = .error e) :
    x >>= f = ⟨x.events, .error e⟩ := by
  rcases x with ⟨events, _ | b⟩ <;> cases h
  rfl

end Bind

instance : LawfulMonad Traced := LawfulMonad.mk' Traced
  (fun {_} x => by rcases x with ⟨events, _ | a⟩ <;> simp [Functor.map])
  (fun _ _ => by simp [bind, pure])
  (fun {_ _ _} x f g => by
    rcases x with ⟨events, _ | a⟩
    · rfl
    · cases hf : (f a).outcome <;> simp [bind, hf])

end Traced

end ExactLinAlg
