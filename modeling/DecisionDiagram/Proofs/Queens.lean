import DecisionDiagram.Proofs.Chessboard
import DecisionDiagram.Proofs.Operators
import DecisionDiagram.Queens.Game

/-!
# What the queens solver counts

The solver makes a variable for each cell, then conjoins one disjunction for each row and the
demands of a queen on each cell.  If nothing fails on the way, the result is true exactly of
the placements, no two cells share a variable, and the number printed last is the number of
placements.
-/

namespace DecisionDiagram.Queens

open SessionM (Ensures)

variable {n row col : Nat} {square : Square n} {assignment : Assignment}
variable {session : Session} {table later : UniqueTable}
variable {board : Board} {refs : List Ref} {ref : Ref}

/-! ## Loops that collect -/

section Collect

variable {β : Type} {make : Nat → SessionM β}
variable (loop : (remaining index : Nat) → List β → SessionM (List β))
variable (relates : UniqueTable → Nat → β → Prop)
variable (stop : ∀ index made, loop 0 index made = pure made.reverse)
variable (next : ∀ remaining index made, loop (remaining + 1) index made =
  make index >>= fun item => loop remaining (index + 1) (item :: made))
variable (keeps : ∀ (table later : UniqueTable) (index : Nat) (item : β), later.Extends table →
  relates table index item → relates later index item)
variable (each : ∀ (index : Nat) (session : Session), session.Sound →
  Ensures (make index) session fun table item => relates table index item)
include stop next keeps each

theorem ensures_collectFrom (remaining index : Nat) (made : List β) (sound : session.Sound) :
    Ensures (loop remaining index made) session fun table items =>
      ∃ fresh, items = made.reverse ++ fresh ∧
        List.Forall₂ (relates table) (List.range' index remaining) fresh := by
  induction remaining generalizing index made session with
  | zero =>
      rw [stop]
      exact .pure sound ⟨[], by simp, .nil⟩
  | succ remaining ih =>
      rw [next, List.range'_succ]
      refine .bind (each index session sound) fun item middle middleSound _ related => ?_
      refine (ih (index + 1) (item :: made) middleSound).weaken ?_
      intro table items grown collected
      obtain ⟨fresh, rfl, relatedRest⟩ := collected
      exact ⟨item :: fresh, by simp, .cons (keeps _ _ _ _ grown related) relatedRest⟩

/-- If a loop makes item after item and collects them, each item is made for its own index. -/
theorem ensures_collect (count : Nat) (sound : session.Sound) :
    Ensures (loop count 0 []) session fun table items =>
      List.Forall₂ (relates table) (List.range count) items := by
  refine (ensures_collectFrom loop relates stop next keeps each count 0 [] sound).weaken ?_
  rintro table _ _ ⟨fresh, rfl, related⟩
  rwa [List.range_eq_range']

end Collect

/-! ## The board -/

/-- The id stands for the variable of a cell, which is not the reserved one. -/
def ShowsCell (n row : Nat) (table : UniqueTable) (col : Nat) (ref : Ref) : Prop :=
  cellVar n (row, col) ≠ terminalVar ∧
    table.StandsFor ref fun assignment => assignment (cellVar n (row, col))

/-- The ids stand for the variables of the cells of a row. -/
def ShowsRow (n : Nat) (table : UniqueTable) (row : Nat) (refs : List Ref) : Prop :=
  List.Forall₂ (ShowsCell n row table) (List.range n) refs

/-- The board has a row of ids for each row, which stand for the variables of its cells. -/
def Shows (n : Nat) (table : UniqueTable) (board : Board) : Prop :=
  List.Forall₂ (ShowsRow n table) (List.range n) board

theorem ShowsCell.extend (shown : ShowsCell n row table col ref) (grown : later.Extends table) :
    ShowsCell n row later col ref :=
  ⟨shown.1, shown.2.extend grown⟩

theorem ShowsRow.extend (shown : ShowsRow n table row refs) (grown : later.Extends table) :
    ShowsRow n later row refs :=
  List.Forall₂.imp (fun _ _ cell => cell.extend grown) shown

theorem Shows.extend (shown : Shows n table board) (grown : later.Extends table) :
    Shows n later board :=
  List.Forall₂.imp (fun _ _ row => row.extend grown) shown

theorem ensures_makeCells (row : Nat) (sound : session.Sound) :
    Ensures (makeCells n row n 0 []) session fun table refs => ShowsRow n table row refs :=
  ensures_collect (makeCells n row) (ShowsCell n row) (fun _ _ => rfl) (fun _ _ _ => rfl)
    (fun _ _ _ _ grown shown => shown.extend grown)
    (fun col _ sound => .makeVar sound (cellVar n (row, col))) n sound

theorem ensures_makeRows (sound : session.Sound) :
    Ensures (makeRows n n 0 []) session fun table board => Shows n table board :=
  ensures_collect (makeRows n) (ShowsRow n) (fun _ _ => rfl) (fun _ _ _ => rfl)
    (fun _ _ _ _ grown shown => shown.extend grown)
    (fun row _ sound => ensures_makeCells row sound) n sound

theorem getD_of_forall₂_range {β : Type} {relates : Nat → β → Prop} {items : List β}
    {index : Nat} (related : List.Forall₂ relates (List.range n) items) (inside : index < n)
    (default : β) :
    relates index (items.getD index default) := by
  obtain ⟨count, each⟩ := List.forall₂_iff_get.1 related
  rw [List.length_range] at count
  have here := each index (by simpa) (by omega)
  rw [List.get_eq_getElem, List.getElem_range, List.get_eq_getElem] at here
  rwa [List.getD_eq_getElem?_getD, List.getElem?_eq_getElem, Option.getD_some]

theorem Shows.cell (shown : Shows n table board) (square : Square n) :
    ShowsCell n square.1 table square.2 (board.at square.cell) :=
  getD_of_forall₂_range (getD_of_forall₂_range shown square.1.isLt []) square.2.isLt .falseRef

section Related

variable {α β : Type} {relates : α → β → Prop} {first : List α} {second : List β}
variable {left : α → Prop} {right : β → Prop}

theorem forall_mem_iff_of_forall₂ (related : List.Forall₂ relates first second)
    (same : ∀ {x y}, relates x y → (left x ↔ right y)) :
    (∀ x ∈ first, left x) ↔ ∀ y ∈ second, right y := by
  induction related with
  | nil => simp
  | cons head _ ih => simp [same head, ih]

theorem exists_mem_iff_of_forall₂ (related : List.Forall₂ relates first second)
    (same : ∀ {x y}, relates x y → (left x ↔ right y)) :
    (∃ x ∈ first, left x) ↔ ∃ y ∈ second, right y := by
  induction related with
  | nil => simp
  | cons head _ ih => simp [same head, ih]

theorem forall_mem_of_forall₂ (related : List.Forall₂ relates first second)
    (holds : ∀ {x y}, relates x y → right y) : ∀ y ∈ second, right y :=
  (forall_mem_iff_of_forall₂ related fun pair => iff_of_true trivial (holds pair)).1
    fun _ _ => trivial

end Related

theorem Shows.knows (shown : Shows n table board) :
    ∀ refs ∈ board, ∀ ref ∈ refs, table.Knows ref :=
  forall_mem_of_forall₂ shown fun row => forall_mem_of_forall₂ row fun cell => cell.2.knows

theorem ShowsCell.function_eq (shown : ShowsCell n row table col ref)
    (wellFormed : table.WellFormed) :
    table.function ref assignment = assignment (cellVar n (row, col)) := by
  rw [wellFormed.function_of_standsFor shown.2]

theorem Shows.filled_iff (shown : Shows n table board) (wellFormed : table.WellFormed) :
    (board.all fun refs => refs.any fun ref => table.function ref assignment) = true ↔
      ∀ row, ∃ col, (row, col) ∈ queensOf n assignment := by
  have cell : ∀ {row col ref}, ShowsCell n row table col ref →
      (assignment (cellVar n (row, col)) = true ↔ table.function ref assignment = true) :=
    fun shown => by rw [shown.function_eq wellFormed]
  have rows := forall_mem_iff_of_forall₂ shown fun row => exists_mem_iff_of_forall₂ row cell
  simp only [List.all_eq_true, List.any_eq_true, ← rows]
  simp [Fin.forall_iff, Fin.exists_iff, Square.cell]

/-! ## Rows and demands -/

def apart (n : Nat) (cell other : Cell) : Assignment → Bool :=
  fun assignment => !assignment (cellVar n cell) || !assignment (cellVar n other)

/-- What a queen on a cell demands, as a function. -/
def demanded (n : Nat) (cell : Cell) : Assignment → Bool :=
  fun assignment => (attacked n cell).all (apart n cell · assignment)

/-- What a queen on a cell demands of another cell. -/
def forbid (board : Board) (cell other : Cell) : SessionM Ref := do
  let vacant ← negate (board.at other)
  apply .imply (board.at cell) vacant

theorem demand_eq (board : Board) (n : Nat) (cell : Cell) :
    demand board n cell = (attacked n cell).foldlM (fun demands other => do
      apply .and demands (← forbid board cell other)) .trueRef := by
  simp only [demand, forbid, bind_assoc]

theorem ensures_forbid (square other : Square n) (sound : session.Sound)
    (shown : Shows n session.table board) :
    Ensures (forbid board square.cell other.cell) session fun table ref =>
      table.StandsFor ref (apart n square.cell other.cell) := by
  refine .bind (.negate sound (shown.cell other).2) fun vacant middle middleSound grown stands => ?_
  exact .apply .imply middleSound ((shown.cell square).2.extend grown) stands

theorem ensures_demand (square : Square n) (sound : session.Sound)
    (shown : Shows n session.table board) :
    Ensures (demand board n square.cell) session fun table ref =>
      table.StandsFor ref (demanded n square.cell) := by
  have each : ∀ cell ∈ attacked n square.cell, ∀ middle : Session, middle.Sound →
      middle.table.Extends session.table → Ensures (forbid board square.cell cell) middle
        fun table ref => table.StandsFor ref (apart n square.cell cell) := by
    intro cell listed middle middleSound grown
    obtain ⟨other, _, rfl⟩ := mem_attacked.1 listed
    exact ensures_forbid square other middleSound (shown.extend grown)
  rw [demand_eq]
  exact .conjoinAll sound (session.table.standsFor_ofBool true) each

theorem mem_cells {cell : Cell} : cell ∈ cells n ↔ ∃ square : Square n, square.cell = cell := by
  simp [cells, Square.cell, Fin.exists_iff]

/-- All demands are met if no queen attacks another. -/
theorem demanded_iff : (∀ cell ∈ cells n, demanded n cell assignment = true) ↔
    Peaceful (queensOf n assignment) := by
  simp only [demanded, List.all_eq_true, apart, Bool.or_eq_true, Bool.not_eq_true']
  constructor
  · intro met square inside other otherInside attacks
    rw [mem_queensOf] at inside otherInside
    have listed := mem_attacked.2 ⟨other, attacks, rfl⟩
    rcases met square.cell (mem_cells.2 ⟨square, rfl⟩) other.cell listed with vacant | vacant
    · simp [vacant] at inside
    · simp [vacant] at otherInside
  · intro peaceful cell listed target targetListed
    obtain ⟨square, rfl⟩ := mem_cells.1 listed
    obtain ⟨other, attacks, rfl⟩ := mem_attacked.1 targetListed
    by_contra occupied
    rw [not_or, Bool.not_eq_false, Bool.not_eq_false, ← mem_queensOf, ← mem_queensOf] at occupied
    exact peaceful square occupied.1 other occupied.2 attacks

/-- What the solver builds is true exactly of the placements, and no cell of the board has the
reserved variable. -/
theorem ensures_placements (sound : session.Sound) :
    Ensures (placements n) session fun table root =>
      (∀ square : Square n, cellVar n square.cell ≠ terminalVar) ∧
      ∃ function, table.StandsFor root function ∧
        ∀ assignment, function assignment = true ↔ Placement (queensOf n assignment) := by
  refine .bind (ensures_makeRows sound) fun board middle middleSound _ shown => ?_
  have wellFormed := middleSound.wellFormed
  have everyRow : ∀ refs ∈ board, ∀ later : Session, later.Sound →
      later.table.Extends middle.table → Ensures (disjoin refs) later fun table ref =>
        table.StandsFor ref fun assignment => refs.any (middle.table.function · assignment) := by
    intro refs member later laterSound grown
    refine .disjoin laterSound fun ref inside => ?_
    exact (wellFormed.standsFor_function (shown.knows refs member ref inside)).extend grown
  have filled := Ensures.conjoinAll middleSound (middle.table.standsFor_ofBool true) everyRow
  refine .bind filled fun filled filledSession filledSound grown filledStands => ?_
  have everyCell : ∀ cell ∈ cells n, ∀ later : Session, later.Sound →
      later.table.Extends filledSession.table → Ensures (demand board n cell) later
        fun table ref => table.StandsFor ref (demanded n cell) := by
    intro cell listed later laterSound further
    obtain ⟨square, rfl⟩ := mem_cells.1 listed
    exact ensures_demand square laterSound (shown.extend (further.trans grown))
  refine (Ensures.conjoinAll filledSound filledStands everyCell).weaken ?_
  intro table root _ stands
  refine ⟨fun square => (shown.cell square).1, _, stands, fun assignment => ?_⟩
  rw [Bool.and_eq_true, Bool.true_and, shown.filled_iff wellFormed, List.all_eq_true,
    demanded_iff, placement_iff]

/-! ## The run -/

/-- Over the variables of the cells, what stands for the placements has as many models as there
are placements. -/
theorem countModels_of_standsFor {manager : Manager} {root : Ref} {function : Assignment → Bool}
    (wellFormed : manager.table.WellFormed) (stands : manager.table.StandsFor root function)
    (small : n * n ≤ terminalVar.toNat)
    (exact : ∀ assignment, function assignment = true ↔ Placement (queensOf n assignment)) :
    manager.countModels root (domain n) = .ok (solutions n) := by
  obtain ⟨diagram, represents, rfl⟩ := stands
  have canonical := wellFormed.canonical represents
  rw [Manager.countModels_of_represents wellFormed represents]
  rcases canonical.exact_countModels (domain n) with
    ⟨_, counted⟩ | ⟨tested, inside, missing, _⟩
  · rw [counted, ncard_models small exact]
  · have depends := canonical.dependsOn_iff.2 inside
    exact absurd (Std.TreeSet.mem_toList.2 (mem_domain_of_dependsOn small exact depends)) missing

/-- The id is true exactly of the placements and is counted as such.  No number of a cell is
cut off: a cell has the variable `row * n + col`, and the domain the variables below `n * n`. -/
structure Solved (n : Nat) (manager : Manager) (root : Ref) : Prop where
  function_iff : ∀ assignment,
    manager.table.function root assignment = true ↔ Placement (queensOf n assignment)
  toNat_cellVar : ∀ square : Square n, (cellVar n square.cell).toNat = square.1 * n + square.2
  mem_domain : ∀ var, var ∈ domain n ↔ var.toNat < n * n
  countModels : manager.countModels root (domain n) = .ok (solutions n)

theorem solved_of_run {root : Ref} {after : Session}
    (run : (placements n).run session = .ok root after) (sound : session.Sound) :
    Solved n after.toManager root := by
  obtain ⟨afterSound, _, usable, function, stands, exact⟩ := ensures_placements sound root after run
  have wellFormed : after.table.WellFormed := afterSound.wellFormed
  have small := sq_le_of_usable usable
  refine ⟨?_, ?_, ?_, ?_⟩
  · rwa [wellFormed.function_of_standsFor stands]
  · intro square
    rw [toNat_cellVar small, finProdFinEquiv_apply_val, Nat.mul_comm, Nat.add_comm]
  · exact fun var => mem_domain_iff_toNat small
  · exact countModels_of_standsFor wellFormed stands small exact

section Run

variable {α : Type} {made : α} {before after : List String}

theorem eq_of_run_ofExcept {answer : Except Failure α}
    (run : (MonadExcept.ofExcept answer : Printing α).run before = .ok made after) :
    answer = .ok made ∧ after = before := by
  cases answer with
  | ok given =>
      cases run
      exact ⟨rfl, rfl⟩
  | error failure => cases run

/-- What a setup makes is what it makes on its own; its events are added to the lines. -/
theorem exists_of_run_ofSetup {setup : Setup α}
    (run : (Printing.ofSetup setup).run before = .ok made after) :
    ∃ journal, setup.run { threshold := some .info } = .ok made journal ∧ before <+: after := by
  unfold Printing.ofSetup at run
  cases result : EStateM.run setup { threshold := some .info } with
  | ok given journal =>
      simp only [result] at run
      cases run
      exact ⟨journal, rfl, List.prefix_append before _⟩
  | error failure journal =>
      simp only [result] at run
      cases run

theorem exists_of_run_ofSession {manager later : Manager} {action : SessionM α}
    (run : (Printing.ofSession manager action).run before = .ok (made, later) after) :
    ∃ session, action.run { manager with journal := {} } = .ok made session ∧
      later = session.toManager ∧ after = before := by
  unfold Printing.ofSession at run
  cases result : EStateM.run action { manager with journal := {} } with
  | ok given session =>
      simp only [result] at run
      cases run
      exact ⟨session, rfl, rfl, rfl⟩
  | error failure session =>
      simp only [result] at run
      cases run

end Run

theorem sound_of_run_launch {limit : Nat} {budget : Budget} {before after : Journal}
    {manager : Manager} (run : (Shared.launch limit budget).run before = .ok manager after) :
    manager.Sound := by
  obtain ⟨manager, _, created, run⟩ := exists_of_run_bind_eq_ok run
  obtain ⟨_, _, _, run⟩ := exists_of_run_bind_eq_ok run
  cases run
  exact (Manager.Reachable.created created).sound

/-- The last step of a run prints the number of placements. -/
theorem Solved.eq_of_run_count {manager : Manager} {root : Ref} {before after : List String}
    (solved : Solved n manager root)
    (run : (do
        let count ← MonadExcept.ofExcept (manager.countModels root (domain n))
        Printing.say [s!"There are {count} solutions"] : Printing Unit).run before =
      .ok () after) :
    after = before ++ [s!"There are {solutions n} solutions"] := by
  obtain ⟨_, _, answered, run⟩ := exists_of_run_bind_eq_ok run
  obtain ⟨counted, rfl⟩ := eq_of_run_ofExcept answered
  rw [solved.countModels] at counted
  cases counted
  cases run
  rfl

/-- Whatever the size of the board and of the tables: a run that ends without a failure has
built the function of the placements and prints their number last. -/
theorem solve_of_run {limit : Nat} {settings : Settings} {before after : List String}
    (run : (solve limit settings).run before = .ok () after) :
    ∃ budget manager journal root later printed,
      settings.budget = .ok budget ∧
      (Shared.launch limit budget).run { threshold := some .info } = .ok manager journal ∧
      (placements settings.n).run { manager with journal := {} } = .ok root later ∧
      Solved settings.n later.toManager root ∧
      before <+: printed ∧ after = printed ++ [s!"There are {solutions settings.n} solutions"] ∧
      (settings.n = 0 → solutions settings.n = 1) := by
  unfold solve at run
  obtain ⟨_, _, said, run⟩ := exists_of_run_bind_eq_ok run
  cases said
  obtain ⟨budget, _, granted, run⟩ := exists_of_run_bind_eq_ok run
  obtain ⟨affordable, rfl⟩ := eq_of_run_ofExcept granted
  obtain ⟨manager, prepared, setUp, run⟩ := exists_of_run_bind_eq_ok run
  obtain ⟨journal, launched, started⟩ := exists_of_run_ofSetup setUp
  obtain ⟨_, _, said, run⟩ := exists_of_run_bind_eq_ok run
  cases said
  obtain ⟨⟨root, _⟩, _, worked, run⟩ := exists_of_run_bind_eq_ok run
  obtain ⟨later, built, rfl, rfl⟩ := exists_of_run_ofSession worked
  obtain ⟨_, _, said, run⟩ := exists_of_run_bind_eq_ok run
  cases said
  have solved := solved_of_run built (sound_of_run_launch launched)
  have begun : before <+: prepared := (List.prefix_append before _).trans started
  have ended : ∃ printed, prepared <+: printed ∧
      after = printed ++ [s!"There are {solutions settings.n} solutions"] := by
    dsimp only at run
    split at run
    case isTrue small =>
      obtain ⟨_, _, answered, run⟩ := exists_of_run_bind_eq_ok run
      obtain ⟨_, rfl⟩ := eq_of_run_ofExcept answered
      obtain ⟨_, _, said, run⟩ := exists_of_run_bind_eq_ok run
      cases said
      refine ⟨_, ?_, solved.eq_of_run_count run⟩
      simp only [List.append_assoc, List.prefix_append]
    case isFalse large =>
      refine ⟨_, ?_, solved.eq_of_run_count run⟩
      simp only [List.append_assoc, List.prefix_append]
  obtain ⟨printed, continued, rfl⟩ := ended
  refine ⟨budget, manager, journal, root, later, printed, affordable, launched, built, solved,
    begun.trans continued, rfl, ?_⟩
  intro empty
  rw [empty, solutions_zero]

theorem exists_of_completes {limit : Nat} {settings : Settings} {before : List String}
    (completes : (match (solve limit settings).run before with
      | .ok .. => true
      | .error .. => false) = true) :
    ∃ after, (solve limit settings).run before = .ok () after := by
  cases result : (solve limit settings).run before with
  | ok answer after => exact ⟨after, rfl⟩
  | error failure after => simp [result] at completes

/-- On small boards and with small tables, one queen finds a place and two do not. -/
theorem solve_of_small_boards :
    (∃ after, (solve 1073741824 ⟨1, 1, 1⟩).run [] = .ok () after ∧
      after.getLast? = some "There are 1 solutions") ∧
    ∃ after, (solve 1073741824 ⟨2, 1, 1⟩).run [] = .ok () after ∧
      after.getLast? = some "There are 0 solutions" := by
  have one : solutions 1 = 1 := by decide
  have two : solutions 2 = 0 := by decide
  have oneRuns : ∃ after, (solve 1073741824 ⟨1, 1, 1⟩).run [] = .ok () after :=
    exists_of_completes (by decide +kernel)
  have twoRuns : ∃ after, (solve 1073741824 ⟨2, 1, 1⟩).run [] = .ok () after :=
    exists_of_completes (by decide +kernel)
  constructor
  · obtain ⟨after, run⟩ := oneRuns
    obtain ⟨_, _, _, _, _, printed, _, _, _, _, _, rfl, _⟩ := solve_of_run run
    refine ⟨_, run, ?_⟩
    simp only [List.getLast?_concat, one]
    rfl
  · obtain ⟨after, run⟩ := twoRuns
    obtain ⟨_, _, _, _, _, printed, _, _, _, _, _, rfl, _⟩ := solve_of_run run
    refine ⟨_, run, ?_⟩
    simp only [List.getLast?_concat, two]
    rfl

end DecisionDiagram.Queens
