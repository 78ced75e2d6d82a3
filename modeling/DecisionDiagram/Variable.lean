/-!
# Variables

Variables are 32-bit numbers, tested in ascending order.  The largest number is
not a variable: it stands for "no variable" and is reported for the constants, so
that they lie below every decision.
-/

namespace DecisionDiagram

/-- A variable of a boolean function, named by its place in the testing order. -/
abbrev Var := UInt32

/-- The number reported for constants.  No decision node may test it, so it
compares greater than every variable in use. -/
def terminalVar : Var := 4294967295

theorem le_terminalVar (var : Var) : var ≤ terminalVar := by
  have bound := var.toNat_lt
  rw [UInt32.le_iff_toNat_le]
  simp only [terminalVar, UInt32.toNat_ofNat]
  omega

theorem lt_terminalVar {var : Var} (used : var ≠ terminalVar) : var < terminalVar :=
  UInt32.lt_of_le_of_ne (le_terminalVar var) used

theorem ne_terminalVar_of_lt {var next : Var} (before : var < next) : var ≠ terminalVar :=
  UInt32.ne_of_lt (UInt32.lt_of_lt_of_le before (le_terminalVar next))

end DecisionDiagram
