import DecisionDiagram.Ref

/-!
# Boolean operators

The operators whose results a manager remembers: negation, five binary
connectives and if-then-else.  The connectives form a type of their own, since one
recursion serves all of them.
-/

namespace DecisionDiagram

inductive BinaryOp where
  | and
  | or
  | xor
  | imply
  | equiv
  deriving DecidableEq, Repr

namespace BinaryOp

/-- The truth table of a connective. -/
def eval : BinaryOp → Bool → Bool → Bool
  | .and, left, right => left && right
  | .or, left, right => left || right
  | .xor, left, right => left ^^ right
  | .imply, left, right => !left || right
  | .equiv, left, right => left == right

def isCommutative : BinaryOp → Bool
  | .imply => false
  | _ => true

/-- The name in lower case, as it stands in the record of a call. -/
def verb : BinaryOp → String
  | .and => "and"
  | .or => "or"
  | .xor => "xor"
  | .imply => "imply"
  | .equiv => "equiv"

/-- The name with a capital letter, as it stands in the record of a result. -/
def name : BinaryOp → String
  | .and => "And"
  | .or => "Or"
  | .xor => "Xor"
  | .imply => "Imply"
  | .equiv => "Equiv"

/-- Operands of a commutative connective in ascending order of their ids, so that
both orders share one remembered result. -/
def arrange (op : BinaryOp) (left right : Ref) : Ref × Ref :=
  if op.isCommutative && right.before left then (right, left) else (left, right)

/-- A connective is commutative exactly when its truth table is symmetric. -/
theorem isCommutative_iff {op : BinaryOp} :
    op.isCommutative = true ↔ ∀ left right, op.eval left right = op.eval right left := by
  cases op <;> decide

end BinaryOp

inductive Operator where
  | not
  | binary (op : BinaryOp)
  | ite
  deriving DecidableEq, Repr

namespace Operator

def arity : Operator → Nat
  | .not => 1
  | .binary _ => 2
  | .ite => 3

def isCommutative : Operator → Bool
  | .binary op => op.isCommutative
  | _ => false

/-- The number of the operator, which takes part in hashing. -/
def tag : Operator → UInt64
  | .not => 0
  | .binary .and => 1
  | .binary .or => 2
  | .binary .xor => 3
  | .binary .imply => 4
  | .binary .equiv => 5
  | .ite => 6

/-- The name with a capital letter. -/
def name : Operator → String
  | .not => "Not"
  | .binary op => op.name
  | .ite => "Ite"

/-- All operators, in the order of their numbers. -/
def all : List Operator :=
  [.not, .binary .and, .binary .or, .binary .xor, .binary .imply, .binary .equiv, .ite]

def ofName? (name : String) : Option Operator :=
  all.find? (·.name == name)

end Operator
end DecisionDiagram
