import DecisionDiagram.Proofs.Models
import DecisionDiagram.Queens.Placement
import Mathlib.Data.Fintype.Powerset
import Mathlib.Data.Fintype.Prod
import Mathlib.Logic.Equiv.Fin.Basic

/-!
# Queens on a chessboard

A placement puts one queen into every row so that none attacks another.  As no two queens
share a row, these are the ways to place as many queens as there are rows.  A cell of the
board is identified by its variable as long as variables can tell the cells apart.
-/

namespace DecisionDiagram.Queens

/-- The squares of a board with `n` rows and `n` columns: the row, then the column. -/
abbrev Square (n : Nat) := Fin n × Fin n

variable {n : Nat} {square other : Square n} {queens : Finset (Square n)}

def Square.cell (square : Square n) : Cell :=
  (square.1, square.2)

/-- Another square in the same row, in the same column, or on one of the two diagonals. -/
def Attacks (square other : Square n) : Prop :=
  square ≠ other ∧
    (square.1 = other.1 ∨ square.2 = other.2 ∨
      (square.1 : Nat) + other.2 = other.1 + square.2 ∨
      (square.1 : Nat) + square.2 = other.1 + other.2)

instance : DecidableRel (@Attacks n) := fun square other =>
  inferInstanceAs (Decidable (square ≠ other ∧ _))

/-- No queen attacks another. -/
def Peaceful (queens : Finset (Square n)) : Prop :=
  ∀ square ∈ queens, ∀ other ∈ queens, ¬Attacks square other

instance : DecidablePred (@Peaceful n) := fun queens =>
  inferInstanceAs (Decidable (∀ square ∈ queens, ∀ other ∈ queens, ¬Attacks square other))

/-- How many ways there are to place `n` queens so that none attacks another. -/
def solutions (n : Nat) : Nat :=
  (Finset.univ.filter fun queens : Finset (Square n) => queens.card = n ∧ Peaceful queens).card

/-- One queen in every row, and none attacks another. -/
structure Placement (queens : Finset (Square n)) : Prop where
  one_per_row : ∀ row, ∃! col, (row, col) ∈ queens
  peaceful : Peaceful queens

/-! ## Attacked cells -/

section Attacked

variable {cell : Cell} {row col : Nat}

theorem mem_sameRow : (row, col) ∈ sameRow n cell ↔ row = cell.1 ∧ col < n ∧ col ≠ cell.2 := by
  simp only [sameRow, List.mem_map, List.mem_filter, List.mem_range, decide_eq_true_eq,
    Prod.mk.injEq]
  constructor
  · rintro ⟨_, ⟨inside, different⟩, rfl, rfl⟩
    exact ⟨rfl, inside, different⟩
  · rintro ⟨rfl, inside, different⟩
    exact ⟨col, ⟨inside, different⟩, rfl, rfl⟩

theorem mem_sameColumn :
    (row, col) ∈ sameColumn n cell ↔ col = cell.2 ∧ row < n ∧ row ≠ cell.1 := by
  simp only [sameColumn, List.mem_map, List.mem_filter, List.mem_range, decide_eq_true_eq,
    Prod.mk.injEq]
  constructor
  · rintro ⟨_, ⟨inside, different⟩, rfl, rfl⟩
    exact ⟨rfl, inside, different⟩
  · rintro ⟨rfl, inside, different⟩
    exact ⟨row, ⟨inside, different⟩, rfl, rfl⟩

theorem mem_fallingDiagonal : (row, col) ∈ fallingDiagonal n cell ↔
    row < n ∧ col < n ∧ row ≠ cell.1 ∧ cell.1 + col = row + cell.2 := by
  simp only [fallingDiagonal, List.mem_filterMap, List.mem_filter, List.mem_range,
    decide_eq_true_eq, Option.ite_none_right_eq_some, Option.some.injEq, Prod.mk.injEq]
  constructor
  · rintro ⟨_, ⟨inside, different⟩, ⟨left, right⟩, rfl, rfl⟩
    exact ⟨inside, right, different, by omega⟩
  · rintro ⟨inside, right, different, aligned⟩
    exact ⟨row, ⟨inside, different⟩, ⟨by omega, by omega⟩, rfl, by omega⟩

theorem mem_risingDiagonal : (row, col) ∈ risingDiagonal n cell ↔
    row < n ∧ col < n ∧ row ≠ cell.1 ∧ cell.1 + cell.2 = row + col := by
  simp only [risingDiagonal, List.mem_filterMap, List.mem_filter, List.mem_range,
    decide_eq_true_eq, Option.ite_none_right_eq_some, Option.some.injEq, Prod.mk.injEq]
  constructor
  · rintro ⟨_, ⟨inside, different⟩, ⟨left, right⟩, rfl, rfl⟩
    exact ⟨inside, right, different, by omega⟩
  · rintro ⟨inside, right, different, aligned⟩
    exact ⟨row, ⟨inside, different⟩, ⟨by omega, by omega⟩, rfl, by omega⟩

/-- From a square of the board, the attacked cells are the attacked squares. -/
theorem mem_attacked : cell ∈ attacked n square.cell ↔
    ∃ other : Square n, Attacks square other ∧ other.cell = cell := by
  obtain ⟨⟨row, rowInside⟩, col, colInside⟩ := square
  obtain ⟨otherRow, otherCol⟩ := cell
  simp only [attacked, List.mem_append, mem_sameRow, mem_sameColumn, mem_fallingDiagonal,
    mem_risingDiagonal, Square.cell]
  constructor
  · intro listed
    have inside : otherRow < n ∧ otherCol < n := by omega
    refine ⟨(⟨otherRow, inside.1⟩, ⟨otherCol, inside.2⟩), ?_, rfl⟩
    simp only [Attacks, ne_eq, Prod.mk.injEq, Fin.mk.injEq]
    omega
  · rintro ⟨⟨⟨_, rowInside⟩, _, colInside⟩, attacks, same⟩
    simp only [Prod.mk.injEq] at same
    simp only [Attacks, ne_eq, Prod.mk.injEq, Fin.mk.injEq] at attacks
    omega

end Attacked

/-! ## Rows -/

theorem Peaceful.injOn_row (peaceful : Peaceful queens) :
    Set.InjOn Prod.fst (queens : Set (Square n)) := by
  intro square inside other otherInside same
  by_contra different
  exact peaceful square inside other otherInside ⟨different, .inl same⟩

theorem placement_iff :
    Placement queens ↔ (∀ row, ∃ col, (row, col) ∈ queens) ∧ Peaceful queens := by
  constructor
  · intro placement
    exact ⟨fun row => (placement.one_per_row row).exists, placement.peaceful⟩
  · rintro ⟨everyRow, peaceful⟩
    refine ⟨fun row => ?_, peaceful⟩
    obtain ⟨col, inside⟩ := everyRow row
    refine ⟨col, inside, fun other otherInside => ?_⟩
    exact congrArg Prod.snd (peaceful.injOn_row otherInside inside rfl)

/-- With at most one queen in a row, `n` queens are one in every row. -/
theorem placement_iff_card : Placement queens ↔ queens.card = n ∧ Peaceful queens := by
  rw [placement_iff]
  refine and_congr_left fun peaceful => ?_
  have rows : (queens.image Prod.fst).card = queens.card :=
    Finset.card_image_of_injOn peaceful.injOn_row
  have all : (queens.image Prod.fst).card = n ↔ queens.image Prod.fst = Finset.univ := by
    rw [← Finset.card_eq_iff_eq_univ, Fintype.card_fin]
  rw [← rows, all, Finset.eq_univ_iff_forall]
  simp

theorem ncard_placements :
    { queens : Finset (Square n) | Placement queens }.ncard = solutions n := by
  rw [solutions, ← Set.ncard_coe_finset]
  congr
  ext queens
  simp [placement_iff_card]

/-- On the empty board there is one way to place no queen. -/
theorem solutions_zero : solutions 0 = 1 := by
  decide

/-! ## Variables -/

section Variables

variable {assignment : Assignment} {var : Var}

/-- The squares whose variable is true. -/
def queensOf (n : Nat) (assignment : Assignment) : Finset (Square n) :=
  Finset.univ.filter fun square => assignment (cellVar n square.cell)

@[simp] theorem mem_queensOf :
    square ∈ queensOf n assignment ↔ assignment (cellVar n square.cell) = true := by
  simp [queensOf]

/-- Squares are numbered row by row. -/
theorem cellVar_eq (square : Square n) :
    cellVar n square.cell = UInt32.ofNat (finProdFinEquiv square) := by
  rw [cellVar, Square.cell, finProdFinEquiv_apply_val, Nat.mul_comm, Nat.add_comm]

/-- A board on which no cell has the reserved variable is small enough to number. -/
theorem sq_le_of_usable (usable : ∀ square : Square n, cellVar n square.cell ≠ terminalVar) :
    n * n ≤ terminalVar.toNat := by
  by_contra large
  have reserved := usable (finProdFinEquiv.symm ⟨terminalVar.toNat, Nat.not_le.1 large⟩)
  rw [cellVar_eq, Equiv.apply_symm_apply] at reserved
  exact reserved rfl

theorem toNat_cellVar (small : n * n ≤ terminalVar.toNat) (square : Square n) :
    (cellVar n square.cell).toNat = finProdFinEquiv square := by
  have bound := (finProdFinEquiv square).isLt
  have size : terminalVar.toNat < UInt32.size := terminalVar.toNat_lt
  rw [cellVar_eq, UInt32.toNat_ofNat_of_lt' (by omega)]

theorem cellVar_injective (small : n * n ≤ terminalVar.toNat) :
    Function.Injective fun square : Square n => cellVar n square.cell := by
  intro square other same
  have numbers := congrArg UInt32.toNat same
  beta_reduce at numbers
  rw [toNat_cellVar small, toNat_cellVar small] at numbers
  exact finProdFinEquiv.injective (Fin.ext numbers)

/-- The domain consists of the first variables, as many as there are squares. -/
theorem mem_domain_iff_toNat (small : n * n ≤ terminalVar.toNat) :
    var ∈ domain n ↔ var.toNat < n * n := by
  have size : terminalVar.toNat < UInt32.size := terminalVar.toNat_lt
  rw [domain, UInt32.toNat_ofNat_of_lt' (by omega), Std.TreeSet.mem_ofList, List.contains_iff_mem,
    List.mem_map]
  constructor
  · rintro ⟨number, inside, rfl⟩
    rw [List.mem_range] at inside
    rwa [UInt32.toNat_ofNat_of_lt' (by omega)]
  · intro inside
    exact ⟨var.toNat, List.mem_range.2 inside, UInt32.ofNat_toNat⟩

theorem mem_domain_iff_cellVar (small : n * n ≤ terminalVar.toNat) :
    var ∈ domain n ↔ ∃ square : Square n, cellVar n square.cell = var := by
  rw [mem_domain_iff_toNat small]
  constructor
  · intro inside
    refine ⟨finProdFinEquiv.symm ⟨var.toNat, inside⟩, ?_⟩
    rw [cellVar_eq, Equiv.apply_symm_apply, UInt32.ofNat_toNat]
  · rintro ⟨square, rfl⟩
    rw [toNat_cellVar small]
    exact (finProdFinEquiv square).isLt

/-- The assignment that makes the variables of some squares true and no others. -/
def marking (queens : Finset (Square n)) : Assignment :=
  fun var => decide (∃ square ∈ queens, cellVar n square.cell = var)

theorem queensOf_marking (small : n * n ≤ terminalVar.toNat) (queens : Finset (Square n)) :
    queensOf n (marking queens) = queens := by
  ext square
  have same : ∀ other : Square n,
      cellVar n other.cell = cellVar n square.cell ↔ other = square := fun other =>
    (cellVar_injective small).eq_iff
  simp [marking, same]

/-- A function that is true exactly of the placements depends on the domain only. -/
theorem mem_domain_of_dependsOn (small : n * n ≤ terminalVar.toNat)
    {function : Assignment → Bool}
    (exact : ∀ assignment, function assignment = true ↔ Placement (queensOf n assignment))
    (depends : DependsOn function var) : var ∈ domain n := by
  obtain ⟨assignment, matters⟩ := depends
  by_contra outside
  rw [mem_domain_iff_cellVar small] at outside
  have untouched : ∀ value, queensOf n (Function.update assignment var value) =
      queensOf n assignment := by
    intro value
    ext square
    have other : cellVar n square.cell ≠ var := fun same => outside ⟨square, same⟩
    rw [mem_queensOf, mem_queensOf, Function.update_of_ne other]
  apply matters
  rw [Bool.eq_iff_iff, exact, exact, untouched, untouched]

/-- The models of such a function are as many as the placements. -/
theorem ncard_models (small : n * n ≤ terminalVar.toNat) {function : Assignment → Bool}
    (exact : ∀ assignment, function assignment = true ↔ Placement (queensOf n assignment)) :
    (models (domain n).toList function).ncard = solutions n := by
  have injective : Set.InjOn (queensOf n) (models (domain n).toList function) := by
    intro left leftModel right rightModel same
    funext var
    by_cases inside : var ∈ domain n
    · obtain ⟨square, rfl⟩ := (mem_domain_iff_cellVar small).1 inside
      rw [Bool.eq_iff_iff, ← mem_queensOf, ← mem_queensOf, same]
    · have outside := mt Std.TreeSet.mem_toList.1 inside
      rw [leftModel.2 var outside, rightModel.2 var outside]
  have image : queensOf n '' models (domain n).toList function = { queens | Placement queens } := by
    ext queens
    constructor
    · rintro ⟨assignment, ⟨holds, _⟩, rfl⟩
      exact (exact assignment).1 holds
    · intro placement
      have back := queensOf_marking small queens
      refine ⟨marking queens, ⟨(exact _).2 (back.symm ▸ placement), fun var outside => ?_⟩, back⟩
      rw [Std.TreeSet.mem_toList, mem_domain_iff_cellVar small] at outside
      have unmarked : ¬∃ square ∈ queens, cellVar n square.cell = var := fun marked =>
        outside (marked.imp fun _ both => both.2)
      exact decide_eq_false unmarked
  rw [← ncard_placements, ← image, injective.ncard_image]

end Variables

end DecisionDiagram.Queens
