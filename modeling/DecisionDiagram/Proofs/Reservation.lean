import DecisionDiagram.Proofs.Reachable
import DecisionDiagram.Proofs.Words
import Mathlib.Order.Bounds.Basic

/-!
# Reserving tables

A budget grants bytes for each of the two tables.  How many cells are reserved is worked out in
several places: for the caller who plans a budget, and again when each table is reserved.  All of
them agree, and every operation on words that they make has a value.
-/

namespace DecisionDiagram

/-! ## Demands -/

/-- What is demanded for a table: some cells of one size, out of granted bytes. -/
structure Demand where
  granted : Nat
  cellBytes : Nat
  cells : Nat

namespace Demand

def bytes (demand : Demand) : Nat :=
  demand.cells * demand.cellBytes

/-- The grant pays for a cell, and the limit admits all of them. -/
def Fits (limit : Nat) (demand : Demand) : Prop :=
  demand.cellBytes ≤ demand.granted ∧ demand.bytes ≤ limit

instance (limit : Nat) (demand : Demand) : Decidable (demand.Fits limit) :=
  inferInstanceAs (Decidable (_ ∧ _))

/-- The bytes reported when the demand is refused: those granted if they do not pay for a cell. -/
def refused (demand : Demand) : Nat :=
  if demand.granted < demand.cellBytes then demand.granted else demand.bytes

end Demand

namespace Setup

variable {α : Type} {action : Setup α} {limit granted cellBytes count : Nat}
variable {component : Component} {Spans : α → Nat → Prop} {demand : Demand}

/-- The action serves a demand that fits with a table that spans its cells, and refuses any other
one. -/
structure Serves (action : Setup α) (limit : Nat) (component : Component) (Spans : α → Nat → Prop)
    (demand : Demand) : Prop where
  answers : demand.Fits limit → ∀ before, ∃ table after,
    action.run before = .ok table after ∧ Spans table demand.cells
  refuses : ¬demand.Fits limit → ∀ before, ∃ after,
    action.run before = .error (.error (.allocationFailure component demand.refused)) after

theorem run_reserve_of_le {bytes : Nat} (within : bytes ≤ limit) (before : Journal) :
    (reserve limit component bytes).run before = .ok () before := by
  rw [reserve, if_pos within]
  rfl

theorem run_reserve_of_not_le {bytes : Nat} (beyond : ¬bytes ≤ limit) (before : Journal) :
    (reserve limit component bytes).run before =
      .error (.error (.allocationFailure component bytes)) before := by
  rw [reserve, if_neg beyond]
  rfl

theorem run_record (event : Event) (before : Journal) :
    (record event).run before = .ok () (before.record event) := rfl

/-- An event may come first. -/
theorem Serves.after (event : Event) (serves : Serves action limit component Spans demand) :
    Serves (do record event; action) limit component Spans demand where
  answers fits before := by
    rw [run_bind_of_ok (run_record event before)]
    exact serves.answers fits (before.record event)
  refuses lacks before := by
    rw [run_bind_of_ok (run_record event before)]
    exact serves.refuses lacks (before.record event)

/-- Once there is a cell to pay for, only the limit decides. -/
theorem Serves.of_reserve {table : α} (event : Event) (paid : cellBytes ≤ granted)
    (spans : Spans table count) :
    Serves (do reserve limit component (count * cellBytes); record event; pure table) limit
      component Spans ⟨granted, cellBytes, count⟩ where
  answers fits before := by
    have within : count * cellBytes ≤ limit := fits.2
    rw [run_bind_of_ok (run_reserve_of_le within before),
      run_bind_of_ok (run_record event before)]
    exact ⟨table, before.record event, rfl, spans⟩
  refuses lacks before := by
    have beyond : ¬count * cellBytes ≤ limit := fun within => lacks ⟨paid, within⟩
    rw [run_bind_of_error (run_reserve_of_not_le beyond before), Demand.refused,
      if_neg (Nat.not_lt.2 paid)]
    exact ⟨before, rfl⟩

/-- A grant that does not pay for a cell is reported itself. -/
theorem Serves.of_throw (poor : granted < cellBytes) :
    Serves (throw (.error (.allocationFailure component granted))) limit component Spans
      ⟨granted, cellBytes, count⟩ where
  answers fits := absurd fits.1 (Nat.not_le.2 poor)
  refuses _ before := by
    rw [Demand.refused, if_pos poor]
    exact ⟨before, rfl⟩

end Setup

/-! ## Capacities -/

theorem div_entryBytes_eq_zero_iff (bytes : UInt64) :
    bytes / .ofNat entryBytes = 0 ↔ bytes.toNat < entryBytes := by
  rw [← UInt64.toNat_inj, toNat_div_entryBytes]
  exact Nat.div_eq_zero_iff_lt (by decide)

theorem memoBits?_of_lt {bytes : UInt64} (poor : bytes.toNat < entryBytes) :
    memoBits? bytes = .ok none :=
  if_pos ((div_entryBytes_eq_zero_iff bytes).2 poor)

theorem memoBits?_of_le {bytes : UInt64} (paid : entryBytes ≤ bytes.toNat) :
    memoBits? bytes = .ok (some (min (Nat.log2 (bytes.toNat / entryBytes)) maxMemoBits)) := by
  have something : bytes / .ofNat entryBytes ≠ 0 :=
    mt (div_entryBytes_eq_zero_iff bytes).1 (Nat.not_lt.2 paid)
  rw [memoBits?, if_neg something, Word.log2?_eq something, toNat_div_entryBytes]
  rfl

namespace Budget

theorem memoEntries_of_lt {budget : Budget} (poor : budget.memoBytes.toNat < entryBytes) :
    budget.memoEntries = .ok 0 := by
  rw [memoEntries, memoBits?_of_lt poor]
  rfl

theorem exists_memoEntries {budget : Budget} (paid : entryBytes ≤ budget.memoBytes.toNat) :
    ∃ entries, budget.memoEntries = .ok entries ∧ entries.toNat =
      2 ^ min (Nat.log2 (budget.memoBytes.toNat / entryBytes)) maxMemoBits := by
  have few : min (Nat.log2 (budget.memoBytes.toNat / entryBytes)) maxMemoBits < 64 :=
    Nat.lt_of_le_of_lt (Nat.min_le_right _ _) (by decide)
  obtain ⟨entries, power, same⟩ := Word.exists_power few
  refine ⟨entries, ?_, same⟩
  rw [memoEntries, memoBits?_of_le paid]
  exact congrArg Word.require power

theorem memoCapacity_eq_zero (budget : Budget) (poor : budget.memoBytes.toNat < entryBytes) :
    budget.memoCapacity = 0 := by
  rw [memoCapacity, memoEntries_of_lt poor]
  rfl

theorem memoCapacity_eq (budget : Budget) (paid : entryBytes ≤ budget.memoBytes.toNat) :
    budget.memoCapacity =
      2 ^ min (Nat.log2 (budget.memoBytes.toNat / entryBytes)) maxMemoBits := by
  obtain ⟨entries, value, same⟩ := exists_memoEntries paid
  rw [memoCapacity, value]
  exact same

theorem exists_announced (budget : Budget) :
    ∃ entries, budget.memoEntries = .ok entries ∧ entries.toNat = budget.memoCapacity := by
  rcases Nat.lt_or_ge budget.memoBytes.toNat entryBytes with poor | paid
  · exact ⟨0, memoEntries_of_lt poor, (budget.memoCapacity_eq_zero poor).symm⟩
  · obtain ⟨entries, value, same⟩ := exists_memoEntries paid
    exact ⟨entries, value, same.trans (budget.memoCapacity_eq paid).symm⟩

/-- Rounding down to a power of two finds the largest one that is paid for. -/
theorem isGreatest_memoCapacity (budget : Budget) (paid : entryBytes ≤ budget.memoBytes.toNat) :
    IsGreatest { entries | ∃ bits, entries = 2 ^ bits ∧
      entries ≤ min (budget.memoBytes.toNat / entryBytes) (2 ^ maxMemoBits) }
      budget.memoCapacity := by
  have something : budget.memoBytes.toNat / entryBytes ≠ 0 :=
    Nat.ne_of_gt (Nat.div_pos paid (by decide))
  have within : ∀ bits, 2 ^ bits ≤ min (budget.memoBytes.toNat / entryBytes) (2 ^ maxMemoBits) ↔
      bits ≤ min (Nat.log2 (budget.memoBytes.toNat / entryBytes)) maxMemoBits := by
    intro bits
    rw [Nat.le_min, Nat.le_min, Nat.le_log2 something, Nat.pow_le_pow_iff_right (by decide)]
  rw [memoCapacity_eq budget paid]
  constructor
  · exact ⟨_, rfl, (within _).2 (Nat.le_refl _)⟩
  · rintro _ ⟨bits, rfl, fits⟩
    exact Nat.pow_le_pow_right (by decide) ((within bits).1 fits)

def tableDemand (budget : Budget) : Demand :=
  ⟨budget.nodeBytes.toNat, slotBytes, min budget.nodeCapacity maxCapacity⟩

def memoDemand (budget : Budget) : Demand :=
  ⟨budget.memoBytes.toNat, entryBytes, budget.memoCapacity⟩

theorem bytes_tableDemand_le (budget : Budget) :
    budget.tableDemand.bytes ≤ budget.nodeBytes.toNat :=
  Nat.le_trans (Nat.mul_le_mul_right slotBytes (Nat.min_le_left _ _)) (Nat.div_mul_le_self _ _)

theorem bytes_memoDemand_le (budget : Budget) :
    budget.memoDemand.bytes ≤ budget.memoBytes.toNat := by
  have fits : budget.memoCapacity ≤ budget.memoBytes.toNat / entryBytes := by
    rcases Nat.lt_or_ge budget.memoBytes.toNat entryBytes with poor | paid
    · rw [memoCapacity_eq_zero budget poor]
      exact Nat.zero_le _
    · obtain ⟨⟨_, _, within⟩, _⟩ := isGreatest_memoCapacity budget paid
      exact Nat.le_trans within (Nat.min_le_left _ _)
  exact Nat.le_trans (Nat.mul_le_mul_right entryBytes fits) (Nat.div_mul_le_self _ _)

theorem nodeCapacity_withNodeCapacity (budget : Budget) (nodes : Nat) :
    (budget.withNodeCapacity nodes).nodeCapacity = min nodes (2 ^ 60 - 1) := by
  rw [nodeCapacity, withNodeCapacity]
  rcases Nat.lt_or_ge (nodes * slotBytes) UInt64.size with fits | beyond
  · rw [UInt64.toNat_ofNatClamp_of_lt fits]
    simp only [slotBytes, UInt64.size] at fits ⊢
    omega
  · rw [UInt64.toNat_ofNatClamp_of_le beyond]
    simp only [slotBytes, UInt64.size] at beyond ⊢
    omega

end Budget

/-! ## Both tables -/

theorem UniqueTable.serves_withCapacity {capacity granted : Nat} (limit : Nat)
    (capacity_pos : 0 < capacity) (capacity_le : capacity ≤ maxCapacity)
    (paid : slotBytes ≤ granted) :
    Setup.Serves (withCapacity limit capacity) limit .uniqueTable (·.capacity = ·)
      ⟨granted, slotBytes, capacity⟩ := by
  have bytes : (UInt64.ofNatClamp (capacity * slotBytes)).toNat = capacity * slotBytes := by
    apply UInt64.toNat_ofNatClamp_of_lt
    simp only [maxCapacity, slotBytes, UInt64.size] at capacity_le ⊢
    omega
  rw [withCapacity, dif_pos ⟨capacity_pos, capacity_le⟩, bytes]
  exact .of_reserve _ paid rfl

theorem UniqueTable.serves_ofBudget (limit : Nat) (budget : Budget) :
    Setup.Serves (ofBudget limit budget.nodeBytes) limit .uniqueTable (·.capacity = ·)
      budget.tableDemand := by
  simp only [ofBudget, toNat_div_slotBytes, Budget.tableDemand, Budget.nodeCapacity]
  split
  case isTrue clamped =>
    rw [Nat.min_eq_right (Nat.le_of_lt clamped)]
    refine .after _ (serves_withCapacity limit (by decide) (Nat.le_refl _) ?_)
    exact Nat.div_pos_iff.1 (Nat.zero_lt_of_lt clamped) |>.2
  case isFalse fits =>
    rw [Nat.min_eq_left (Nat.le_of_not_lt fits)]
    split
    case isTrue nothing => exact .of_throw (by simpa [slotBytes] using nothing)
    case isFalse something =>
      have positive := Nat.pos_of_ne_zero something
      have paid := (Nat.div_pos_iff.1 positive).2
      exact serves_withCapacity limit positive (Nat.le_of_not_lt fits) paid

/-- The table has that many entries, and its mask is the number of the last one. -/
def Memo.Spans (memo : Memo) (entries : Nat) : Prop :=
  memo.capacity = entries ∧ memo.mask.toNat + 1 = entries

theorem Memo.serves_withBits {bits granted : Nat} (limit : Nat) (bits_le : bits ≤ maxMemoBits)
    (paid : entryBytes ≤ granted) :
    Setup.Serves (withBits limit bits) limit .computedTable Memo.Spans
      ⟨granted, entryBytes, 2 ^ bits⟩ := by
  obtain ⟨entries, power, same⟩ := Word.exists_power (Nat.lt_of_le_of_lt bits_le (by decide))
  have positive : (1 : UInt64).toNat ≤ entries.toNat := by
    rw [same]
    exact Nat.two_pow_pos bits
  obtain ⟨mask, before⟩ := Word.exists_difference positive
  have attached : (Word.difference? entries 1).attach = some ⟨mask, before⟩ :=
    Option.attach_eq_some_iff.2 before
  have bytes : (UInt64.ofNatClamp (entries.toNat * entryBytes)).toNat =
      entries.toNat * entryBytes := by
    apply UInt64.toNat_ofNatClamp_of_lt
    rw [same]
    exact Nat.lt_of_le_of_lt
      (Nat.mul_le_mul_right entryBytes (Nat.pow_le_pow_right (by decide) bits_le)) (by decide)
  simp only [withBits, if_pos bits_le, power, Word.require_some, Setup.checked_ok_bind, bytes,
    attached]
  rw [← same]
  exact .of_reserve _ paid ⟨rfl, Word.toNat_add_of_difference? before⟩

theorem Memo.serves_ofBudget (limit : Nat) (budget : Budget) :
    Setup.Serves (ofBudget limit budget.memoBytes) limit .computedTable Memo.Spans
      budget.memoDemand := by
  rw [ofBudget, Budget.memoDemand]
  by_cases poor : budget.memoBytes.toNat < entryBytes
  case pos =>
    rw [memoBits?_of_lt poor]
    exact .of_throw poor
  case neg =>
    have paid := Nat.le_of_not_lt poor
    have something : budget.memoBytes / .ofNat entryBytes ≠ 0 :=
      mt (div_entryBytes_eq_zero_iff _).1 poor
    rw [memoBits?_of_le paid, budget.memoCapacity_eq paid, Word.log2?_eq something]
    simp only [Word.require_some, Setup.checked_ok_bind]
    split
    case isTrue => exact .after _ (serves_withBits limit (Nat.min_le_right _ _) paid)
    case isFalse => exact serves_withBits limit (Nat.min_le_right _ _) paid

/-! ## Managers -/

namespace Manager

variable {limit : Nat} {budget : Budget}

theorem exists_run_create (tableFits : budget.tableDemand.Fits limit)
    (memoFits : budget.memoDemand.Fits limit) (before : Journal) :
    ∃ manager after, (create limit budget).run before = .ok manager after ∧
      manager.table.capacity = budget.tableDemand.cells ∧
      manager.memo.Spans budget.memoDemand.cells := by
  obtain ⟨table, middle, reserved, slots⟩ :=
    (UniqueTable.serves_ofBudget limit budget).answers tableFits before
  obtain ⟨memo, after, alsoReserved, entries⟩ :=
    (Memo.serves_ofBudget limit budget).answers memoFits middle
  rw [create, run_bind_of_ok reserved, run_bind_of_ok alsoReserved]
  exact ⟨⟨table, memo, budget⟩, _, rfl, slots, entries⟩

/-- The first demand that does not fit is refused. -/
theorem exists_run_create_of_not_fits
    (lacks : ¬(budget.tableDemand.Fits limit ∧ budget.memoDemand.Fits limit)) (before : Journal) :
    ∃ after, (create limit budget).run before = .error (.error
      (if budget.tableDemand.Fits limit then
        .allocationFailure .computedTable budget.memoDemand.refused
      else .allocationFailure .uniqueTable budget.tableDemand.refused)) after := by
  rw [create]
  split
  case isTrue tableFits =>
    obtain ⟨table, middle, reserved, _⟩ :=
      (UniqueTable.serves_ofBudget limit budget).answers tableFits before
    obtain ⟨after, refused⟩ := (Memo.serves_ofBudget limit budget).refuses
      (fun memoFits => lacks ⟨tableFits, memoFits⟩) middle
    exact ⟨after, by rw [run_bind_of_ok reserved, run_bind_of_error refused]⟩
  case isFalse tableLacks =>
    obtain ⟨after, refused⟩ :=
      (UniqueTable.serves_ofBudget limit budget).refuses tableLacks before
    exact ⟨after, run_bind_of_error refused⟩

theorem run_create_ne_defect (limit : Nat) (budget : Budget) (before : Journal) (defect : Defect)
    (after : Journal) : (create limit budget).run before ≠ .error (.defect defect) after := by
  intro stopped
  by_cases fits : budget.tableDemand.Fits limit ∧ budget.memoDemand.Fits limit
  case pos =>
    obtain ⟨_, _, run, _⟩ := exists_run_create fits.1 fits.2 before
    cases run.symm.trans stopped
  case neg =>
    obtain ⟨_, run⟩ := exists_run_create_of_not_fits fits before
    cases run.symm.trans stopped

end Manager

/-- A manager is created exactly if both budgets pay for a cell and the limit admits both tables.
Then the capacities are those that the budget announces; otherwise the first table that cannot be
reserved is named, with its budget if this pays for nothing, else with the bytes that it takes.  No
table takes more than its budget, and no operation on words that this is worked out with lacks a
value. -/
theorem create_of_budget (limit : Nat) (budget : Budget) (journal : Journal) :
    let slots := min (budget.nodeBytes.toNat / 16) (2 ^ 32 - 3)
    let entries := budget.memoCapacity
    let table : Demand := ⟨budget.nodeBytes.toNat, 16, slots⟩
    let memo : Demand := ⟨budget.memoBytes.toNat, 24, entries⟩
    let created := (Manager.create limit budget).run journal
    (table.Fits limit ∧ memo.Fits limit → ∃ manager after, created = .ok manager after ∧
      manager.table.capacity = slots ∧ manager.memo.capacity = entries ∧
      manager.memo.mask.toNat + 1 = entries) ∧
    (¬(table.Fits limit ∧ memo.Fits limit) → ∃ after, created = .error (.error
      (if table.Fits limit then .allocationFailure .computedTable memo.refused
        else .allocationFailure .uniqueTable table.refused)) after) ∧
    (∀ defect after, created ≠ .error (.defect defect) after) ∧
    (∃ announced, budget.memoEntries = .ok announced ∧ announced.toNat = entries) ∧
    (table.bytes ≤ budget.nodeBytes.toNat ∧ memo.bytes ≤ budget.memoBytes.toNat) ∧
    (budget.memoBytes.toNat < 24 → entries = 0) ∧
    (24 ≤ budget.memoBytes.toNat → IsGreatest { count | ∃ bits, count = 2 ^ bits ∧
      count ≤ min (budget.memoBytes.toNat / 24) (2 ^ 31) } entries) ∧
    ∀ nodes, (budget.withNodeCapacity nodes).nodeCapacity = min nodes (2 ^ 60 - 1) := by
  intro slots entries table memo created
  exact ⟨fun fits => Manager.exists_run_create fits.1 fits.2 journal,
    fun lacks => Manager.exists_run_create_of_not_fits lacks journal,
    Manager.run_create_ne_defect limit budget journal, budget.exists_announced,
    ⟨budget.bytes_tableDemand_le, budget.bytes_memoDemand_le⟩, budget.memoCapacity_eq_zero,
    budget.isGreatest_memoCapacity, budget.nodeCapacity_withNodeCapacity⟩

/-- A budget for two slots and four entries, under a limit that admits them, and under one that
lacks a byte of the larger table; and a budget without a slot. -/
theorem create_of_budget_two :
    (∃ manager after, (Manager.create 96 ⟨40, 100⟩).run {} = .ok manager after ∧
      manager.table.capacity = 2 ∧ manager.memo.capacity = 4 ∧
      manager.memo.mask.toNat + 1 = 4) ∧
    (∃ after, (Manager.create 95 ⟨40, 100⟩).run {} =
      .error (.error (.allocationFailure .computedTable 96)) after) ∧
    ∃ after, (Manager.create 96 ⟨15, 23⟩).run {} =
      .error (.error (.allocationFailure .uniqueTable 15)) after := by
  refine ⟨?created, ?short, ?poor⟩
  case created => exact (create_of_budget 96 ⟨40, 100⟩ {}).1 (by decide)
  case short => exact (create_of_budget 95 ⟨40, 100⟩ {}).2.1 (by decide)
  case poor => exact (create_of_budget 96 ⟨15, 23⟩ {}).2.1 (by decide)

end DecisionDiagram
