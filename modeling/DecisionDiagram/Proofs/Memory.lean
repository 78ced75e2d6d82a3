import DecisionDiagram.Proofs.Honest

/-!
# Memory

After honest calls everything remembered is right, and managers that differ only in how
much they remember, and in what they were told to forget, give the same answers and fill
the same slots.
-/

namespace DecisionDiagram

/-! ## What is remembered -/

namespace Manager

/-- All ids are known, and the result stands for the operator's function of the operands'
functions. -/
structure Correct (manager : Manager) (op : Operator) (operands : List Ref) (result : Ref) :
    Prop where
  operands_known : ∀ operand ∈ operands, manager.contains operand = true
  result_known : manager.contains result = true
  function_eq : ∀ assignment, manager.table.function result assignment =
    op.evalList (operands.map fun operand => manager.table.function operand assignment)

theorem correct_of_justifies {manager : Manager} {key : Key} {ref : Ref}
    (justified : manager.table.Justifies key ref) :
    manager.Correct key.op key.operands ref := by
  obtain ⟨⟨firstKnown, secondKnown, thirdKnown⟩, known, same⟩ := justified
  refine ⟨?_, contains_iff_knows.2 known, ?_⟩
  · intro operand member
    have padded := List.mem_of_mem_take member
    simp only [List.mem_cons, List.not_mem_nil, or_false] at padded
    rcases padded with rfl | rfl | rfl
    · exact contains_iff_knows.2 firstKnown
    · exact contains_iff_knows.2 secondKnown
    · exact contains_iff_knows.2 thirdKnown
  · intro assignment
    rw [key.evalList_operands fun operand => manager.table.function operand assignment, same]
    rfl

end Manager

/-- A small manager that remembers a conjunction in place of a disjunction, and then runs
out of room. -/
def Session.practised : Session :=
  fresh.run [.makeVar 1, .makeVar 0, .apply .or ⟨3⟩ ⟨2⟩, .apply .and ⟨3⟩ ⟨2⟩, .negate ⟨9⟩,
    .apply .equiv ⟨3⟩ ⟨2⟩]

theorem Session.reachable_practised : practised.toManager.Reachable Call.isHonest :=
  (reachable_fresh Call.isHonest).run _ (by decide)

/-- Whatever a manager remembers after honest calls is right, and so is every result that
it recalls. -/
theorem remembered_of_reachable {manager : Manager}
    (reachable : manager.Reachable Call.isHonest) :
    (∀ (index : Nat) (entry : Memo.Entry), manager.memo.entries[index]? = some entry →
      manager.Correct entry.key.op entry.key.operands entry.result) ∧
    ∀ (journal : Journal) (op : Operator) (operands : List Ref) (result : Ref),
      (Call.memo (.lookUp op operands)).outcome { manager with journal := journal } =
        .answered (.ref? (some result)) → manager.Correct op operands result := by
  have sound := reachable.sound
  constructor
  · intro index entry stored
    exact Manager.correct_of_justifies (sound.remembers index entry stored)
  · intro journal op operands result recalled
    rw [Call.outcome_eq] at recalled
    simp only [Call.perform, SessionM.run_onMemo, Call.run_lookUp_memo] at recalled
    cases made : Key.ofOperands? op operands with
    | none => simp [made, storeView] at recalled
    | some key =>
        obtain ⟨sameOp, sameOperands⟩ := Key.operands_of_ofOperands? made
        have found : manager.memo.find? key = some result := by
          simpa [made, storeView] using recalled
        rw [← sameOp, ← sameOperands]
        exact Manager.correct_of_justifies (sound.justifies found)

theorem remembered_of_practised :
    Session.practised.toManager.Reachable Call.isHonest ∧
      (Call.memo (.lookUp (.binary .and) [⟨2⟩, ⟨3⟩])).outcome Session.practised =
        .answered (.ref? (some ⟨5⟩)) ∧
      ∀ assignment, Session.practised.table.function ⟨5⟩ assignment =
        (Session.practised.table.function ⟨2⟩ assignment &&
          Session.practised.table.function ⟨3⟩ assignment) := by
  have remembered := remembered_of_reachable Session.reachable_practised
  have correct := remembered.2 Session.practised.journal (.binary .and) [⟨2⟩, ⟨3⟩] ⟨5⟩ rfl
  exact ⟨Session.reachable_practised, rfl, correct.function_eq⟩

/-! ## What is not seen -/

/-- The calls of a series, each with its outcome and the store that it left behind. -/
def Session.trace : Session → List (Call Ref) → List (Call Ref × Outcome × UniqueTable)
  | _, [] => []
  | session, call :: rest =>
      (call, call.outcome session, (call.after session).table) :: trace (call.after session) rest

/-- Of a series of honest calls, the plain ones have the outcomes and leave the stores that
they would without the others. -/
theorem Session.trace_filter {left right : Session} {calls : List (Call Ref)}
    (leftSound : left.Sound) (rightSound : right.Sound) (same : left.table = right.table)
    (honest : ∀ call ∈ calls, call.isHonest = true) :
    (left.trace calls).filter (·.1.isPlain) = right.trace (calls.filter (·.isPlain)) ∧
      (left.run calls).table = (right.run (calls.filter (·.isPlain))).table := by
  induction calls generalizing left right with
  | nil => exact ⟨rfl, same⟩
  | cons call rest ih =>
      have callHonest := honest call List.mem_cons_self
      have restHonest := fun later member => honest later (List.mem_cons_of_mem call member)
      cases plain : call.isPlain with
      | true =>
          obtain ⟨outcome, table, leftAfter, rightAfter⟩ :=
            Call.agree_of_plain plain leftSound rightSound same
          have rest := ih leftAfter rightAfter table restHonest
          simp only [trace, run, List.filter_cons, plain, ↓reduceIte, rest, outcome, table,
            and_self]
      | false =>
          obtain ⟨table, leftAfter⟩ := Call.after_of_not_plain callHonest plain leftSound
          have rest := ih leftAfter rightSound (table.trans same) restHonest
          simpa only [trace, run, List.filter_cons, plain, Bool.false_eq_true, ↓reduceIte]
            using rest

/-- A manager with the budget of `Session.fresh` for nodes, and room for four results. -/
def Manager.roomy : Manager :=
  { Session.fresh.toManager with memo := .empty 4 3 (by decide), budget := ⟨64, 96⟩ }

/-- Managers with the same room for nodes give the same answers to the same plain calls,
and their stores stay the same slot by slot, however much each of them can remember and
whatever else is honestly asked of it in between. -/
theorem trace_eq_of_create {leftLimit rightLimit : Nat} {leftBudget rightBudget : Budget}
    {leftBefore leftAfter rightBefore rightAfter : Journal} {left right : Manager}
    (leftCreated : (Manager.create leftLimit leftBudget).run leftBefore = .ok left leftAfter)
    (rightCreated : (Manager.create rightLimit rightBudget).run rightBefore = .ok right rightAfter)
    (sameRoom : leftBudget.nodeBytes = rightBudget.nodeBytes)
    {leftCalls rightCalls : List (Call Ref)}
    (leftHonest : ∀ call ∈ leftCalls, call.isHonest = true)
    (rightHonest : ∀ call ∈ rightCalls, call.isHonest = true)
    (sameCalls : leftCalls.filter (·.isPlain) = rightCalls.filter (·.isPlain))
    (leftJournal rightJournal : Journal) :
    let leftStart : Session := { left with journal := leftJournal }
    let rightStart : Session := { right with journal := rightJournal }
    (leftStart.trace leftCalls).filter (·.1.isPlain) =
        (rightStart.trace rightCalls).filter (·.1.isPlain) ∧
      (leftStart.run leftCalls).table = (rightStart.run rightCalls).table := by
  intro leftStart rightStart
  have leftSound : leftStart.Sound := (Manager.Reachable.created leftCreated).sound
  have rightSound : rightStart.Sound := (Manager.Reachable.created rightCreated).sound
  have same : rightStart.table = leftStart.table := by
    obtain ⟨⟨_, _, leftTable⟩, _⟩ := Manager.tables_of_run_create leftCreated
    obtain ⟨⟨_, _, rightTable⟩, _⟩ := Manager.tables_of_run_create rightCreated
    change right.table = left.table
    simp only [leftTable, rightTable, sameRoom]
  obtain ⟨leftTrace, leftTable⟩ := Session.trace_filter leftSound leftSound rfl leftHonest
  obtain ⟨rightTrace, rightTable⟩ := Session.trace_filter rightSound leftSound same rightHonest
  rw [leftTrace, leftTable, rightTrace, rightTable, sameCalls]
  exact ⟨rfl, rfl⟩

theorem trace_of_roomy :
    (Manager.create 64 ⟨64, 24⟩).run {} = .ok Session.fresh.toManager {} ∧
      (Manager.create 96 ⟨64, 96⟩).run {} = .ok Manager.roomy {} ∧
      (Session.fresh.trace [.makeVar 1, .makeVar 0, .apply .and ⟨3⟩ ⟨2⟩, .memo .clear,
          .apply .and ⟨2⟩ ⟨3⟩, .apply .xor ⟨9⟩ ⟨2⟩, .apply .xor ⟨3⟩ ⟨2⟩]).filter (·.1.isPlain) =
        (({ Manager.roomy with journal := {} } : Session).trace [.makeVar 1,
          .memo (.lookUp .not [⟨2⟩]), .makeVar 0, .apply .and ⟨3⟩ ⟨2⟩, .apply .and ⟨2⟩ ⟨3⟩,
          .apply .xor ⟨9⟩ ⟨2⟩, .apply .xor ⟨3⟩ ⟨2⟩]).filter (·.1.isPlain) := by
  refine ⟨rfl, rfl, ?_⟩
  have leftCreated : (Manager.create 64 ⟨64, 24⟩).run {} = .ok Session.fresh.toManager {} := rfl
  have rightCreated : (Manager.create 96 ⟨64, 96⟩).run {} = .ok Manager.roomy {} := rfl
  exact (trace_eq_of_create leftCreated rightCreated rfl (by decide) (by decide) rfl {} {}).1

end DecisionDiagram
