import DecisionDiagram.Key
import DecisionDiagram.Shortcut
import Mathlib.Tactic.SplitIfs

/-!
# What operators compute

The value of an operator on its operands' values.  Shortcuts are right for every choice
of values for the ids, as long as the constants have their own: they never look at what
an id stands for.
-/

namespace DecisionDiagram

/-- The value of an operator; operands beyond its arity do not count. -/
def Operator.eval : Operator → Bool → Bool → Bool → Bool
  | .not, first, _, _ => !first
  | .binary op, first, second, _ => op.eval first second
  | .ite, first, second, third => (first && second) || (!first && third)

/-- The value of an operator on as many values as it takes. -/
def Operator.evalList : Operator → List Bool → Bool
  | .not, [value] => !value
  | .binary op, [left, right] => op.eval left right
  | .ite, [condition, yes, no] => (condition && yes) || (!condition && no)
  | _, _ => false

/-- The operands of a key that count. -/
def Key.operands (key : Key) : List Ref :=
  [key.first, key.second, key.third].take key.op.arity

/-- Padding does not take part in the value. -/
theorem Key.evalList_operands (key : Key) (value : Ref → Bool) :
    key.op.evalList (key.operands.map value) =
      key.op.eval (value key.first) (value key.second) (value key.third) := by
  obtain ⟨op, first, second, third⟩ := key
  cases op <;> rfl

theorem Key.operands_of_ofOperands? {op : Operator} {operands : List Ref} {key : Key}
    (made : Key.ofOperands? op operands = some key) : key.op = op ∧ key.operands = operands := by
  simp only [Key.ofOperands?] at made
  split at made <;> cases made <;> exact ⟨rfl, rfl⟩

/-- Operands keep their order or change places, the latter only if that is harmless. -/
theorem BinaryOp.arrange_cases (op : BinaryOp) (left right : Ref) :
    op.arrange left right = (left, right) ∨
      op.isCommutative = true ∧ op.arrange left right = (right, left) := by
  simp only [arrange]
  split
  case isTrue exchanged =>
    rw [Bool.and_eq_true] at exchanged
    exact .inr ⟨exchanged.1, rfl⟩
  case isFalse => exact .inl rfl

/-! ## Shortcuts -/

namespace Shortcut

/-- The value of a shortcut, given a value for every id. -/
def eval (value : Ref → Bool) : Shortcut → Bool
  | .is result => value result
  | .negationOf operand => !value operand

/-- The id that a shortcut leads to. -/
def target : Shortcut → Ref
  | .is result => result
  | .negationOf operand => operand

end Shortcut

/-- Values for the ids under which the constants have their own. -/
structure Respectful (value : Ref → Bool) : Prop where
  falseRef : value .falseRef = false
  trueRef : value .trueRef = true

variable {value : Ref → Bool} {op : BinaryOp} {left right condition yes no : Ref}
variable {shortcut : Shortcut}

theorem BinaryOp.eval_of_shortcut? (respectful : Respectful value)
    (found : op.shortcut? left right = some shortcut) :
    shortcut.eval value = op.eval (value left) (value right) := by
  obtain ⟨falseValue, trueValue⟩ := respectful
  cases op <;>
    simp only [shortcut?, andShortcut?, orShortcut?, xorShortcut?, implyShortcut?,
      equivShortcut?] at found <;>
    split_ifs at found <;> cases found <;>
    simp_all [Shortcut.eval, BinaryOp.eval] <;> grind

/-- A shortcut leads to an operand or to a constant. -/
theorem BinaryOp.target_of_shortcut? (found : op.shortcut? left right = some shortcut) :
    shortcut.target = left ∨ shortcut.target = right ∨
      ∃ value, shortcut.target = .ofBool value := by
  cases op <;>
    simp only [shortcut?, andShortcut?, orShortcut?, xorShortcut?, implyShortcut?,
      equivShortcut?] at found <;>
    split_ifs at found <;> cases found <;>
    simp [Shortcut.target, Ref.ofBool]

/-- If the result is the negation of one operand, the other one is a constant. -/
theorem BinaryOp.constant_of_negationOf {operand : Ref}
    (found : op.shortcut? left right = some (.negationOf operand)) :
    (operand = left ∧ ∃ value, right = .ofBool value) ∨
      (operand = right ∧ ∃ value, left = .ofBool value) := by
  cases op <;>
    simp only [shortcut?, andShortcut?, orShortcut?, xorShortcut?, implyShortcut?,
      equivShortcut?] at found <;>
    split_ifs at found <;> cases found <;>
    simp_all [Ref.ofBool]

/-- Operands without a shortcut are no constants. -/
theorem BinaryOp.constant?_of_shortcut?_eq_none (missing : op.shortcut? left right = none) :
    left.constant? = none ∧ right.constant? = none := by
  rw [Ref.constant?_eq_none_iff, Ref.constant?_eq_none_iff]
  cases op <;>
    simp only [shortcut?, andShortcut?, orShortcut?, xorShortcut?, implyShortcut?,
      equivShortcut?] at missing <;>
    split_ifs at missing <;> simp_all

theorem eval_of_chooseShortcut? (respectful : Respectful value)
    (found : chooseShortcut? condition yes no = some shortcut) :
    shortcut.eval value = Operator.ite.eval (value condition) (value yes) (value no) := by
  obtain ⟨falseValue, trueValue⟩ := respectful
  simp only [chooseShortcut?] at found
  split_ifs at found <;> cases found <;> simp_all [Shortcut.eval, Operator.eval]
  cases value condition <;> simp

theorem target_of_chooseShortcut? (found : chooseShortcut? condition yes no = some shortcut) :
    shortcut.target = condition ∨ shortcut.target = yes ∨ shortcut.target = no := by
  simp only [chooseShortcut?] at found
  split_ifs at found <;> cases found <;> simp [Shortcut.target]

/-- If the result is the negation of the condition, both branches are constants. -/
theorem constants_of_negationOf {operand : Ref}
    (found : chooseShortcut? condition yes no = some (.negationOf operand)) :
    operand = condition ∧ yes = .falseRef ∧ no = .trueRef := by
  simp only [chooseShortcut?] at found
  split_ifs at found with _ _ _ _ negated <;> cases found
  exact ⟨rfl, negated⟩

theorem constant?_of_chooseShortcut?_eq_none (missing : chooseShortcut? condition yes no = none) :
    condition.constant? = none := by
  rw [Ref.constant?_eq_none_iff]
  simp only [chooseShortcut?] at missing
  split_ifs at missing
  simp_all

end DecisionDiagram
