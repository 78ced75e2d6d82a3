import DecisionDiagram.Error

/-!
# Words

Operations on 64-bit words, without a value where the machine would stop.  A computation that is
made of them stops there, too: with a defect.
-/

namespace DecisionDiagram.Word

/-- The binary logarithm of a word; zero has none. -/
def log2? (word : UInt64) : Option Nat :=
  if word = 0 then none else some (Nat.log2 word.toNat)

/-- Two to the power of some bits, if it is a word. -/
def power? (bits : Nat) : Option UInt64 :=
  if bits < 64 then some (1 <<< UInt64.ofNat bits) else none

/-- The difference of two words, unless the second one is larger. -/
def difference? (left right : UInt64) : Option UInt64 :=
  if right ≤ left then some (left - right) else none

/-- The value of an operation on words, or a defect if there is none. -/
def require {α : Type} : Option α → Except Defect α
  | some value => .ok value
  | none => .error .arithmetic

@[simp] theorem require_some {α : Type} (value : α) : require (some value) = .ok value := rfl

theorem toNat_add_of_difference? {left right word : UInt64}
    (given : difference? left right = some word) :
    word.toNat + right.toNat = left.toNat := by
  simp only [difference?] at given
  split at given
  case isTrue smaller =>
    cases given
    rw [UInt64.toNat_sub_of_le _ _ smaller]
    exact Nat.sub_add_cancel (UInt64.le_iff_toNat_le.1 smaller)
  case isFalse => cases given

end DecisionDiagram.Word
