import DecisionDiagram.Budget
import DecisionDiagram.Key
import DecisionDiagram.Setup
import Std.Data.TreeMap

/-!
# The computed table

The computed table remembers results of operators.  The hash of a key, masked,
selects the one entry that may hold it; remembering overwrites whatever it held.  The
whole key is stored and compared, so a recalled result always belongs to the
operator and operands asked for.  Forgetting is allowed at any time, which is why a
table of fixed size can serve any number of results.

As in the unique table, only occupied entries take memory.
-/

namespace DecisionDiagram

structure Memo.Entry where
  key : Key
  result : Ref
  deriving DecidableEq, Repr

/-- A table of some entries, with counts of how it was used.  The counts are words and wrap
around. -/
structure Memo where
  capacity : Nat
  /-- The bits of a hash that select an entry. -/
  mask : UInt64
  /-- The occupied entries. -/
  entries : Std.TreeMap Nat Memo.Entry
  /-- Lookups that recalled a result. -/
  hitCount : UInt64
  /-- Lookups that recalled none. -/
  missCount : UInt64
  /-- Those misses whose entry held another key. -/
  faultCount : UInt64
  mask_lt : mask.toNat < capacity

namespace Memo

def empty (capacity : Nat) (mask : UInt64) (mask_lt : mask.toNat < capacity) : Memo :=
  ⟨capacity, mask, ∅, 0, 0, 0, mask_lt⟩

def hits (memo : Memo) : Nat :=
  memo.hitCount.toNat

def misses (memo : Memo) : Nat :=
  memo.missCount.toNat

def faults (memo : Memo) : Nat :=
  memo.faultCount.toNat

def size (memo : Memo) : Nat :=
  memo.entries.size

/-- The entry that a key may occupy. -/
def index (memo : Memo) (key : Key) : Nat :=
  (key.hash &&& memo.mask).toNat

def find? (memo : Memo) (key : Key) : Option Ref :=
  match memo.entries[memo.index key]? with
  | none => none
  | some entry => if entry.key = key then some entry.result else none

/-- The table after one more lookup of a key. -/
def count (memo : Memo) (key : Key) : Memo :=
  match memo.entries[memo.index key]? with
  | none => { memo with missCount := memo.missCount + 1 }
  | some entry =>
      if entry.key = key then { memo with hitCount := memo.hitCount + 1 }
      else { memo with missCount := memo.missCount + 1, faultCount := memo.faultCount + 1 }

/-- Look a key up: the result remembered for it, and the table with the lookup
counted. -/
def lookUp (memo : Memo) (key : Key) : Option Ref × Memo :=
  (memo.find? key, memo.count key)

/-- Remember a result in place of whatever the entry held. -/
def remember (memo : Memo) (key : Key) (result : Ref) : Memo :=
  { memo with entries := memo.entries.insert (memo.index key) ⟨key, result⟩ }

/-- Forget all results.  The counts go on. -/
def clear (memo : Memo) : Memo :=
  { memo with entries := ∅ }

/-- Reserve a table of two to the power of `bits` entries. -/
def withBits (limit bits : Nat) : Setup Memo := do
  if bits ≤ maxMemoBits then
    let entries ← Setup.checked (Word.require (Word.power? bits))
    let bytes := (UInt64.ofNatClamp (entries.toNat * entryBytes)).toNat
    Setup.reserve limit .computedTable bytes
    Setup.record (.memoAllocated entries.toNat bytes)
    let ⟨mask, before⟩ ← Setup.checked (Word.require (Word.difference? entries 1).attach)
    pure (empty entries.toNat mask (Nat.lt_of_succ_le
      (Nat.le_of_eq (Word.toNat_add_of_difference? before))))
  else
    throw (.error (.allocationFailure .computedTable (UInt64.size - 1)))

/-- Reserve a table with as many entries as some bytes pay for, rounded down to a
power of two and at most two to the power of `maxMemoBits`. -/
def ofBudget (limit : Nat) (bytes : UInt64) : Setup Memo := do
  match ← Setup.checked (memoBits? bytes) with
  | none => throw (.error (.allocationFailure .computedTable bytes.toNat))
  | some bits =>
      let paid ← Setup.checked (Word.require (Word.log2? (bytes / .ofNat entryBytes)))
      if bits < paid then
        Setup.record (.memoCapped bytes.toNat bits)
      withBits limit bits

theorem index_lt (memo : Memo) (key : Key) : memo.index key < memo.capacity := by
  rw [index, UInt64.toNat_and]
  exact Nat.lt_of_le_of_lt Nat.and_le_right memo.mask_lt

@[simp] theorem index_remember (memo : Memo) (written key : Key) (result : Ref) :
    (memo.remember written result).index key = memo.index key := rfl

@[simp] theorem entries_remember (memo : Memo) (key : Key) (result : Ref) :
    (memo.remember key result).entries =
      memo.entries.insert (memo.index key) ⟨key, result⟩ := rfl

@[simp] theorem index_clear (memo : Memo) (key : Key) :
    memo.clear.index key = memo.index key := rfl

/-- A lookup changes nothing but the counts. -/
theorem count_eq (memo : Memo) (key : Key) : ∃ hits misses faults, memo.count key =
    { memo with hitCount := hits, missCount := misses, faultCount := faults } := by
  unfold count
  split
  · exact ⟨_, _, _, rfl⟩
  · split <;> exact ⟨_, _, _, rfl⟩

@[simp] theorem capacity_count (memo : Memo) (key : Key) :
    (memo.count key).capacity = memo.capacity := by
  obtain ⟨_, _, _, counted⟩ := memo.count_eq key
  rw [counted]

@[simp] theorem index_count (memo : Memo) (asked key : Key) :
    (memo.count asked).index key = memo.index key := by
  obtain ⟨_, _, _, counted⟩ := memo.count_eq asked
  rw [counted]
  rfl

@[simp] theorem entries_count (memo : Memo) (key : Key) :
    (memo.count key).entries = memo.entries := by
  obtain ⟨_, _, _, counted⟩ := memo.count_eq key
  rw [counted]

/-- What is remembered for a key after another result was remembered: that result if
the key is the same, nothing if the key shares its entry, else what was before. -/
theorem find?_remember (memo : Memo) (written key : Key) (result : Ref) :
    (memo.remember written result).find? key =
      if memo.index written = memo.index key then
        if written = key then some result else none
      else memo.find? key := by
  simp only [find?, index_remember, entries_remember, Std.TreeMap.getElem?_insert,
    Nat.compare_eq_eq]
  by_cases shared : memo.index written = memo.index key <;> simp [shared]

@[simp] theorem find?_clear (memo : Memo) (key : Key) : memo.clear.find? key = none := by
  simp [find?, clear]

@[simp] theorem find?_count (memo : Memo) (asked key : Key) :
    (memo.count asked).find? key = memo.find? key := by
  simp [find?]

end Memo
end DecisionDiagram
