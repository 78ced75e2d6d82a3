import DecisionDiagram.Word
import Mathlib.Algebra.Group.Nat.Defs

/-!
# Exact words

When the operations on words have a value, and that it is the one of the natural numbers.  To
these are added a product and a sum without a value where the machine would wrap around: a
computation that is made of them alone and has a value is exact.
-/

namespace DecisionDiagram.Word

variable {left right word : UInt64} {bits number rest : Nat}

/-- The product of two words, if it is a word. -/
def product? (left right : UInt64) : Option UInt64 :=
  if left.toNat * right.toNat < UInt64.size then some (left * right) else none

/-- The sum of two words, if it is a word. -/
def sum? (left right : UInt64) : Option UInt64 :=
  if left.toNat + right.toNat < UInt64.size then some (left + right) else none

theorem log2?_eq (something : word ≠ 0) : log2? word = some (Nat.log2 word.toNat) :=
  if_neg something

theorem exists_power (few : bits < 64) :
    ∃ word, power? bits = some word ∧ word.toNat = 2 ^ bits := by
  have count : (UInt64.ofNat bits).toNat = bits :=
    UInt64.toNat_ofNat_of_lt' (Nat.lt_trans few (by decide))
  refine ⟨1 <<< UInt64.ofNat bits, if_pos few, ?_⟩
  rw [UInt64.toNat_shiftLeft, count, Nat.mod_eq_of_lt few, UInt64.toNat_one, Nat.one_shiftLeft,
    Nat.mod_eq_of_lt (Nat.pow_lt_pow_right (by decide) few)]

theorem exists_difference (fits : right.toNat ≤ left.toNat) :
    ∃ word, difference? left right = some word :=
  ⟨left - right, if_pos (UInt64.le_iff_toNat_le.2 fits)⟩

/-- A wrapped result that is given only if the number itself is a word stands for that number. -/
theorem guard_eq_some_iff {wrapped : UInt64} (reduced : wrapped.toNat = number % UInt64.size) :
    (if number < UInt64.size then some wrapped else none) = some word ↔ word.toNat = number := by
  split
  case isTrue fits =>
    rw [Nat.mod_eq_of_lt fits] at reduced
    rw [Option.some_inj, ← reduced, UInt64.toNat_inj, eq_comm]
  case isFalse beyond =>
    have bound := word.toNat_lt_size
    simp only [reduceCtorEq, false_iff]
    omega

theorem product?_eq_some_iff :
    product? left right = some word ↔ word.toNat = left.toNat * right.toNat :=
  guard_eq_some_iff (UInt64.toNat_mul left right)

theorem sum?_eq_some_iff :
    sum? left right = some word ↔ word.toNat = left.toNat + right.toNat :=
  guard_eq_some_iff (UInt64.toNat_add left right)

theorem exists_of_lt (fits : number < UInt64.size) : ∃ word : UInt64, word.toNat = number :=
  ⟨.ofNat number, UInt64.toNat_ofNat_of_lt' fits⟩

/-- Where a sum is a word, so is each of its summands. -/
theorem exists_summand_iff :
    (∃ summand : UInt64, summand.toNat = number ∧ word.toNat = summand.toNat + rest) ↔
      word.toNat = number + rest := by
  constructor
  · rintro ⟨summand, rfl, total⟩
    exact total
  · intro total
    have fits : number < UInt64.size :=
      Nat.lt_of_le_of_lt (Nat.le_add_right number rest) (total ▸ word.toNat_lt_size)
    obtain ⟨summand, same⟩ := exists_of_lt fits
    exact ⟨summand, same, by rw [same, total]⟩

end DecisionDiagram.Word
