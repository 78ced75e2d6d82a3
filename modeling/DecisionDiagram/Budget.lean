import DecisionDiagram.Word

/-!
# Memory budgets

A manager reserves its two tables once and never grows them.  A budget says how
many bytes each may take; the cells that this pays for follow by division.  Bytes
are 64-bit words and sums beyond that range stop at the largest word.
-/

namespace DecisionDiagram

/-- Bytes taken by one slot of the unique table. -/
def slotBytes : Nat := 16

/-- Bytes taken by one entry of the computed table. -/
def entryBytes : Nat := 24

/-- The computed table has at most two to this power entries. -/
def maxMemoBits : Nat := 31

@[simp] theorem toNat_div_slotBytes (bytes : UInt64) :
    (bytes / .ofNat slotBytes).toNat = bytes.toNat / slotBytes :=
  UInt64.toNat_div bytes (.ofNat slotBytes)

@[simp] theorem toNat_div_entryBytes (bytes : UInt64) :
    (bytes / .ofNat entryBytes).toNat = bytes.toNat / entryBytes :=
  UInt64.toNat_div bytes (.ofNat entryBytes)

/-- The binary logarithm of the number of entries that some bytes pay for, at most
`maxMemoBits`.  Bytes that do not pay for one entry have none. -/
def memoBits? (bytes : UInt64) : Except Defect (Option Nat) := do
  let entries := bytes / .ofNat entryBytes
  if entries = 0 then
    return none
  else
    return some (min (← Word.require (Word.log2? entries)) maxMemoBits)

/-- How many bytes each of the two tables may take. -/
structure Budget where
  /-- Bytes for the unique table; 256 MiB unless stated otherwise. -/
  nodeBytes : UInt64 := 268435456
  /-- Bytes for the computed table; 512 MiB unless stated otherwise. -/
  memoBytes : UInt64 := 536870912
  deriving DecidableEq, Repr, Inhabited

namespace Budget

def withNodeCapacity (budget : Budget) (nodes : Nat) : Budget :=
  { budget with nodeBytes := UInt64.ofNatClamp (nodes * slotBytes) }

/-- The budget for two to the power of `bits` remembered results. -/
def withMemoBits (budget : Budget) (bits : Nat) : Except Defect Budget := do
  if bits ≤ maxMemoBits then
    let entries ← Word.require (Word.power? bits)
    return { budget with memoBytes := UInt64.ofNatClamp (entries.toNat * entryBytes) }
  else
    throw (.memoBits bits)

def nodeCapacity (budget : Budget) : Nat :=
  budget.nodeBytes.toNat / slotBytes

/-- How many remembered results the budget pays for: a power of two, or none. -/
def memoEntries (budget : Budget) : Except Defect UInt64 := do
  match ← memoBits? budget.memoBytes with
  | none => return 0
  | some bits => Word.require (Word.power? bits)

/-- The same as a number; there are no entries if the power has no value. -/
def memoCapacity (budget : Budget) : Nat :=
  match budget.memoEntries with
  | .ok entries => entries.toNat
  | .error _ => 0

def describe (budget : Budget) : String :=
  s!"BddConfig \x7b node_budget: {budget.nodeBytes}, cache_budget: {budget.memoBytes} \x7d"

inductive Edit where
  | nodeBytes (bytes : UInt64)
  | memoBytes (bytes : UInt64)
  | nodeCapacity (nodes : Nat)
  | memoBits (bits : Nat)
  deriving Repr

def edit (budget : Budget) : Edit → Except Defect Budget
  | .nodeBytes bytes => .ok { budget with nodeBytes := bytes }
  | .memoBytes bytes => .ok { budget with memoBytes := bytes }
  | .nodeCapacity nodes => .ok (budget.withNodeCapacity nodes)
  | .memoBits bits => budget.withMemoBits bits

/-- The default budget after some changes, of which the first one refused ends the
series. -/
def ofEdits (edits : List Edit) : Except Defect Budget :=
  edits.foldlM edit {}

/-- Every budget on the way through some changes.  A refused change leaves its
defect in place of a budget, and the next change starts from the budget before it. -/
def history : Budget → List Edit → List (Except Defect Budget)
  | _, [] => []
  | budget, change :: rest =>
      match budget.edit change with
      | .ok changed => .ok changed :: changed.history rest
      | .error defect => .error defect :: budget.history rest

end Budget
end DecisionDiagram
