/-!
# References

A reference is the 32-bit id of a function in a manager.  The ids `0` and `1` are
the two constants; every other id denotes one slot of the unique table, so an id
carries no ownership and means something only beside the manager that issued it.
-/

namespace DecisionDiagram

/-- The id of a constant or of a decision node. -/
structure Ref where
  /-- The id as a plain number. -/
  id : UInt32
  deriving DecidableEq, Repr, Inhabited

namespace Ref

def falseRef : Ref := ⟨0⟩

def trueRef : Ref := ⟨1⟩

def ofBool (value : Bool) : Ref :=
  if value then trueRef else falseRef

/-- The value of a constant; decision nodes have none. -/
def constant? (ref : Ref) : Option Bool :=
  if ref = falseRef then some false
  else if ref = trueRef then some true
  else none

def isTerminal (ref : Ref) : Bool :=
  ref.id < 2

/-- The id of the node stored in a slot: the first two ids belong to the constants. -/
def ofSlot (slot : Nat) : Ref :=
  ⟨UInt32.ofNat (slot + 2)⟩

/-- The slot that an id denotes; the constants have none. -/
def slot? (ref : Ref) : Option Nat :=
  if ref.isTerminal then none else some (ref.id.toNat - 2)

def before (left right : Ref) : Bool :=
  left.id < right.id

instance : ToString Ref :=
  ⟨fun ref => "@" ++ toString ref.id⟩

def describe (ref : Ref) : String :=
  "Ref(" ++ toString ref.id ++ ")"

@[simp] theorem constant?_falseRef : falseRef.constant? = some false := rfl

@[simp] theorem constant?_trueRef : trueRef.constant? = some true := rfl

@[simp] theorem constant?_ofBool (value : Bool) : (ofBool value).constant? = some value := by
  cases value <;> rfl

/-- Only the constant itself has its value. -/
theorem eq_ofBool_of_constant? {ref : Ref} {value : Bool}
    (known : ref.constant? = some value) : ref = ofBool value := by
  unfold constant? at known
  split at known
  case isTrue isFalse =>
    cases value <;> simp_all [ofBool]
  case isFalse =>
    split at known
    case isTrue isTrue => cases value <;> simp_all [ofBool]
    case isFalse => simp at known

theorem constant?_eq_none_iff {ref : Ref} :
    ref.constant? = none ↔ ref ≠ falseRef ∧ ref ≠ trueRef := by
  unfold constant?
  split <;> simp_all

theorem isTerminal_iff {ref : Ref} :
    ref.isTerminal = true ↔ ref = falseRef ∨ ref = trueRef := by
  obtain ⟨id⟩ := ref
  simp only [isTerminal, decide_eq_true_eq, UInt32.lt_iff_toNat_lt, falseRef, trueRef, mk.injEq,
    ← UInt32.toNat_inj]
  simp
  omega

theorem isTerminal_eq_isSome_constant? (ref : Ref) :
    ref.isTerminal = ref.constant?.isSome := by
  cases terminal : ref.isTerminal
  case false =>
    have decision : ¬ (ref = falseRef ∨ ref = trueRef) :=
      mt isTerminal_iff.2 (ne_true_of_eq_false terminal)
    rw [constant?_eq_none_iff.2 ⟨fun isFalse => decision (.inl isFalse),
      fun isTrue => decision (.inr isTrue)⟩]
    rfl
  case true =>
    rcases isTerminal_iff.1 terminal with rfl | rfl <;> rfl

/-- A slot whose id fits into 32 bits is recovered from its id. -/
@[simp] theorem slot?_ofSlot {slot : Nat} (fits : slot + 2 < UInt32.size) :
    (ofSlot slot).slot? = some slot := by
  have value : (UInt32.ofNat (slot + 2)).toNat = slot + 2 := UInt32.toNat_ofNat_of_lt' fits
  simp only [slot?, isTerminal, ofSlot, UInt32.lt_iff_toNat_lt, value]
  simp

theorem ofSlot_of_slot? {ref : Ref} {slot : Nat} (denotes : ref.slot? = some slot) :
    ofSlot slot = ref := by
  obtain ⟨id⟩ := ref
  simp only [slot?, isTerminal, UInt32.lt_iff_toNat_lt] at denotes
  split at denotes
  · simp at denotes
  · case isFalse notTerminal =>
    simp only [decide_eq_true_eq, Nat.not_lt] at notTerminal
    have two : (2 : UInt32).toNat = 2 := rfl
    obtain rfl : id.toNat - 2 = slot := by simpa using denotes
    simp only [ofSlot, mk.injEq, ← UInt32.toNat_inj]
    have bound := id.toNat_lt
    have size : UInt32.size = 4294967296 := rfl
    rw [UInt32.toNat_ofNat_of_lt' (show id.toNat - 2 + 2 < UInt32.size by omega)]
    omega

end Ref
end DecisionDiagram
