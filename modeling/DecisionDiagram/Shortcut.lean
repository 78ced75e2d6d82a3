import DecisionDiagram.Operator

/-!
# Results known at once

Some operators need not look into the diagrams of their operands: a constant
operand or two equal operands settle the result, or reduce it to a negation.  Where
several rules fit, those that need no negation come first.
-/

namespace DecisionDiagram

/-- A result that takes no expansion. -/
inductive Shortcut where
  /-- The result itself. -/
  | is (result : Ref)
  /-- The result is the negation of an operand. -/
  | negationOf (operand : Ref)
  deriving DecidableEq, Repr

namespace BinaryOp

def andShortcut? (left right : Ref) : Option Shortcut :=
  if left = .falseRef ∨ right = .falseRef then some (.is .falseRef)
  else if left = .trueRef then some (.is right)
  else if right = .trueRef then some (.is left)
  else if left = right then some (.is left)
  else none

def orShortcut? (left right : Ref) : Option Shortcut :=
  if left = .trueRef ∨ right = .trueRef then some (.is .trueRef)
  else if left = .falseRef then some (.is right)
  else if right = .falseRef then some (.is left)
  else if left = right then some (.is left)
  else none

def xorShortcut? (left right : Ref) : Option Shortcut :=
  if left = right then some (.is .falseRef)
  else if left = .falseRef then some (.is right)
  else if right = .falseRef then some (.is left)
  else if left = .trueRef then some (.negationOf right)
  else if right = .trueRef then some (.negationOf left)
  else none

def equivShortcut? (left right : Ref) : Option Shortcut :=
  if left = right then some (.is .trueRef)
  else if left = .trueRef then some (.is right)
  else if right = .trueRef then some (.is left)
  else if left = .falseRef then some (.negationOf right)
  else if right = .falseRef then some (.negationOf left)
  else none

def implyShortcut? (left right : Ref) : Option Shortcut :=
  if left = .falseRef ∨ right = .trueRef then some (.is .trueRef)
  else if left = right then some (.is .trueRef)
  else if left = .trueRef then some (.is right)
  else if right = .falseRef then some (.negationOf left)
  else none

def shortcut? : BinaryOp → Ref → Ref → Option Shortcut
  | .and => andShortcut?
  | .or => orShortcut?
  | .xor => xorShortcut?
  | .imply => implyShortcut?
  | .equiv => equivShortcut?

end BinaryOp

def chooseShortcut? (condition yes no : Ref) : Option Shortcut :=
  if condition = .trueRef then some (.is yes)
  else if condition = .falseRef then some (.is no)
  else if yes = no then some (.is yes)
  else if yes = .trueRef ∧ no = .falseRef then some (.is condition)
  else if yes = .falseRef ∧ no = .trueRef then some (.negationOf condition)
  else none

end DecisionDiagram
