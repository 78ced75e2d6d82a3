import DecisionDiagram.Make
import DecisionDiagram.Shortcut

/-!
# Operators on functions

Every operator works by expansion: it splits its operands by the first variable
that any of them tests, works out both halves, and makes a node of the results.
Shortcuts end the expansion, and a result once worked out is remembered.

The expansions recurse with an explicit depth.  The tested variable grows from one
activation to the next, so on well-formed diagrams `nestingLimit` levels are more
than any expansion can use.
-/

namespace DecisionDiagram

open SessionM

/-- More levels of nesting than there are variables. -/
def nestingLimit : Nat := 4294967298

/-- Negation by expansion, at most so many levels deep. -/
def negateWithin : (depth : Nat) → Ref → SessionM Ref
  | 0, _ => throw .tooDeep
  | depth + 1, operand => do
      record (.negate operand)
      match operand.constant? with
      | some value => pure (.ofBool (!value))
      | none =>
          match ← lookUp (.negation operand) with
          | some result =>
              record (.negateRecalled operand result)
              pure result
          | none =>
              let node ← query (·.node operand)
              let low ← negateWithin depth node.low
              let high ← negateWithin depth node.high
              let result ← make node.var low high
              remember (.negation operand) result
              pure result

/-- A binary connective by expansion, at most so many levels deep. -/
def applyWithin : (depth : Nat) → BinaryOp → Ref → Ref → SessionM Ref
  | 0, _, _, _ => throw .tooDeep
  | depth + 1, op, first, second =>
      match op.shortcut? first second with
      | some (.is result) => pure result
      | some (.negationOf operand) => negateWithin depth operand
      | none => do
          let (left, right) := op.arrange first second
          match ← lookUp (.binary op left right) with
          | some result =>
              record (.applyRecalled op left right result)
              pure result
          | none =>
              let leftVar ← query (·.var left)
              let rightVar ← query (·.var right)
              let top := min leftVar rightVar
              let (left0, left1) ← query (·.cofactors left top)
              let (right0, right1) ← query (·.cofactors right top)
              let low ← applyWithin depth op left0 right0
              let high ← applyWithin depth op left1 right1
              let result ← make top low high
              record (.applyComputed op left right result)
              remember (.binary op left right) result
              pure result

/-- If-then-else by expansion, at most so many levels deep. -/
def chooseWithin : (depth : Nat) → Ref → Ref → Ref → SessionM Ref
  | 0, _, _, _ => throw .tooDeep
  | depth + 1, condition, yes, no => do
      record (.choose condition yes no)
      match chooseShortcut? condition yes no with
      | some (.is result) => pure result
      | some (.negationOf operand) => negateWithin depth operand
      | none =>
          match ← lookUp (.conditional condition yes no) with
          | some result =>
              record (.chooseRecalled condition yes no result)
              pure result
          | none =>
              let conditionVar ← query (·.var condition)
              let yesVar ← query (·.var yes)
              let noVar ← query (·.var no)
              let top := min (min conditionVar yesVar) noVar
              let (condition0, condition1) ← query (·.cofactors condition top)
              let (yes0, yes1) ← query (·.cofactors yes top)
              let (no0, no1) ← query (·.cofactors no top)
              let low ← chooseWithin depth condition0 yes0 no0
              let high ← chooseWithin depth condition1 yes1 no1
              let result ← make top low high
              remember (.conditional condition yes no) result
              pure result

/-- The function that is true where the operand is false. -/
def negate (operand : Ref) : SessionM Ref :=
  negateWithin nestingLimit operand

def apply (op : BinaryOp) (left right : Ref) : SessionM Ref := do
  record (.apply op left right)
  applyWithin nestingLimit op left right

/-- The function that agrees with `yes` where the condition is true, and with `no`
elsewhere. -/
def choose (condition yes no : Ref) : SessionM Ref :=
  chooseWithin nestingLimit condition yes no

def conjoin (operands : List Ref) : SessionM Ref := do
  record .conjoin
  operands.foldlM (apply .and) .trueRef

def disjoin (operands : List Ref) : SessionM Ref := do
  record .disjoin
  operands.foldlM (apply .or) .falseRef

end DecisionDiagram
