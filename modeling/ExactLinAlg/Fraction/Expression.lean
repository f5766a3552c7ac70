import ExactLinAlg.Fraction.Arithmetic

/-!
# Arithmetic expressions

An expression is a tree of operations over fractions. It is evaluated from the leaves up, the left
operand before the right one, and the first failure ends the evaluation. Beside the evaluation
stands the exact value of the expression, a rational number unless something is divided by zero.
-/

namespace ExactLinAlg.Fraction

/-- The operations on one fraction. -/
inductive Unary where
  | neg
  | recip
  | abs

/-- The operations on two fractions. -/
inductive Binary where
  | add
  | sub
  | mul
  | div

/-- The operation on a fraction. -/
def Unary.run : Unary → Fraction → Except Error Fraction
  | neg, a => .ok (-a)
  | recip, a => Fraction.recip a
  | abs, a => .ok a.abs

/-- The operation on two fractions. -/
def Binary.run : Binary → Fraction → Fraction → Except Error Fraction
  | add => Fraction.add
  | sub => Fraction.sub
  | mul => Fraction.mul
  | div => Fraction.div

/-- The operation on a rational number; zero has no reciprocal. -/
def Unary.exact : Unary → Rat → Option Rat
  | neg, x => some (-x)
  | recip, x => if x = 0 then none else some x⁻¹
  | abs, x => some x.abs

/-- The operation on two rational numbers; there is no quotient by zero. -/
def Binary.exact : Binary → Rat → Rat → Option Rat
  | add, x, y => some (x + y)
  | sub, x, y => some (x - y)
  | mul, x, y => some (x * y)
  | div, x, y => if y = 0 then none else some (x / y)

/-- A tree of operations with fractions at its leaves. -/
inductive Expr where
  | leaf (a : Fraction)
  | unary (op : Unary) (e : Expr)
  | binary (op : Binary) (l r : Expr)

namespace Expr

/-- The fraction that the operations give, or the first failure. -/
def eval : Expr → Except Error Fraction
  | leaf a => .ok a
  | unary op e => do op.run (← e.eval)
  | binary op l r => do op.run (← l.eval) (← r.eval)

/-- The exact value, if nothing in the tree is divided by zero. -/
def value? : Expr → Option Rat
  | leaf a => some a.toRat
  | unary op e => do op.exact (← e.value?)
  | binary op l r => do op.exact (← l.value?) (← r.value?)

/-- The divisors and the arguments of reciprocals in the tree. -/
def divisors : Expr → List Expr
  | leaf _ => []
  | unary .recip e => e :: e.divisors
  | unary _ e => e.divisors
  | binary .div l r => r :: (l.divisors ++ r.divisors)
  | binary _ l r => l.divisors ++ r.divisors

theorem mem_divisors_unary {d e : Expr} (op : Unary) (h : d ∈ e.divisors) :
    d ∈ (unary op e).divisors := by
  cases op with
  | recip => exact List.mem_cons_of_mem e h
  | neg => exact h
  | abs => exact h

theorem mem_divisors_binary {d l r : Expr} (op : Binary) (h : d ∈ l.divisors ∨ d ∈ r.divisors) :
    d ∈ (binary op l r).divisors := by
  have happend := List.mem_append.2 h
  cases op with
  | div => exact List.mem_cons_of_mem r happend
  | add => exact happend
  | sub => exact happend
  | mul => exact happend

end Expr

end ExactLinAlg.Fraction
