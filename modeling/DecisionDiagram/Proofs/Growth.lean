import DecisionDiagram.Perform
import DecisionDiagram.Proofs.Intern

/-!
# Growth

Computations on a session change the store only by making nodes, and a node is made
only if it is proper.  So whatever is remembered, and wherever a computation fails,
the store stays well formed and every id keeps its content.
-/

namespace DecisionDiagram

namespace UniqueTable

variable {table later : UniqueTable} {var : Var} {low high : Ref}

/-- What speaks against making a node, the first of several objections. -/
def objection? (table : UniqueTable) (var : Var) (low high : Ref) : Option Violation :=
  if var = terminalVar then some .reservedVariable
  else
    match table.var? low with
    | none => some (.unknownNode low)
    | some lowVar =>
        match table.var? high with
        | none => some (.unknownNode high)
        | some highVar =>
            if low = high then none
            else if lowVar ≤ var then some (.ordering var lowVar)
            else if highVar ≤ var then some (.ordering var highVar)
            else none

/-- Make a node unless something speaks against it. -/
def make (var : Var) (low high : Ref) : StoreM Ref := fun table =>
  match table.objection? var low high with
  | some violation => .error (.violation violation) table
  | none => (merge var low high).run table

theorem run_make (var : Var) (low high : Ref) (table : UniqueTable) :
    (make var low high).run table = match table.objection? var low high with
      | some violation => .error (.violation violation) table
      | none => (merge var low high).run table := rfl

/-- Without objection the branches are the same known id, or the node is proper. -/
theorem known_or_proper_of_objection?_eq_none
    (allowed : table.objection? var low high = none) :
    (low = high ∧ table.Knows low) ∨ (low ≠ high ∧ table.Proper ⟨var, low, high⟩) := by
  simp only [objection?] at allowed
  split at allowed
  case isTrue => simp at allowed
  case isFalse =>
    split at allowed
    case h_1 => simp at allowed
    case h_2 lowVar lowTested =>
      split at allowed
      case h_1 => simp at allowed
      case h_2 highVar highTested =>
        by_cases same : low = high
        · exact .inl ⟨same, knows_iff_var?.2 ⟨lowVar, lowTested⟩⟩
        · simp only [same, ↓reduceIte] at allowed
          by_cases lowBefore : lowVar ≤ var
          · simp [lowBefore] at allowed
          · by_cases highBefore : highVar ≤ var
            · simp [lowBefore, highBefore] at allowed
            · exact .inr ⟨same, same, ⟨lowVar, lowTested, UInt32.not_le.1 lowBefore⟩,
                ⟨highVar, highTested, UInt32.not_le.1 highBefore⟩⟩

theorem objection?_eq_none_of_follows (lowFollows : table.Follows low var)
    (highFollows : table.Follows high var) : table.objection? var low high = none := by
  have usable : var ≠ terminalVar := by
    rintro rfl
    exact UInt32.lt_irrefl _ lowFollows.lt_terminalVar
  obtain ⟨lowVar, lowTested, lowAfter⟩ := lowFollows
  obtain ⟨highVar, highTested, highAfter⟩ := highFollows
  simp [objection?, usable, lowTested, highTested, UInt32.not_le.2 lowAfter,
    UInt32.not_le.2 highAfter]

/-- Equal branches need no node. -/
theorem run_make_self (usable : var ≠ terminalVar) (known : table.Knows low) :
    (make var low low).run table = .ok low table := by
  obtain ⟨lowVar, tested⟩ := knows_iff_var?.1 known
  simp only [run_make, objection?, usable, ↓reduceIte, tested, merge]
  rfl

/-- A node in use is found, however full the table is. -/
theorem WellFormed.run_make_of_node? {ref : Ref} (wellFormed : table.WellFormed)
    (content : table.node? ref = some ⟨var, low, high⟩) :
    (make var low high).run table = .ok ref table := by
  have proper := wellFormed.proper_of_node? content
  have different : low ≠ high := proper.different
  rw [run_make, objection?_eq_none_of_follows proper.low_follows proper.high_follows]
  simp only [merge, different, ↓reduceIte]
  exact wellFormed.run_store_of_node? content

/-- What making a node does: it fails where something speaks against the node, answers the
branch if both are the same, and otherwise names the slot of the content, takes a vacant one
for it, or finds the table full. -/
theorem Searchable.run_make_cases (searchable : table.Searchable) (var : Var) (low high : Ref) :
    (∃ violation, table.objection? var low high = some violation ∧
      (make var low high).run table = .error (.violation violation) table) ∨
    (table.objection? var low high = none ∧ low = high ∧
      (make var low high).run table = .ok low table) ∨
    (∃ slot, table.Proper ⟨var, low, high⟩ ∧ table.content? slot = some ⟨var, low, high⟩ ∧
      (make var low high).run table = .ok (.ofSlot slot) table) ∨
    (∃ slot, table.Proper ⟨var, low, high⟩ ∧ table.probe ⟨var, low, high⟩ = .vacant slot ∧
      (∀ index : Nat, table.content? index ≠ some ⟨var, low, high⟩) ∧
      (make var low high).run table =
        .ok (.ofSlot slot) (table.occupy slot ⟨var, low, high⟩)) ∨
    (table.Proper ⟨var, low, high⟩ ∧ table.probe ⟨var, low, high⟩ = .exhausted ∧
      (∀ index : Nat, table.content? index ≠ some ⟨var, low, high⟩) ∧
      (make var low high).run table =
        .error (.error (.capacityExhausted table.capacity)) table) := by
  rw [UniqueTable.run_make]
  cases objection : table.objection? var low high with
  | some violation => exact .inl ⟨violation, rfl, rfl⟩
  | none =>
      right
      rcases known_or_proper_of_objection?_eq_none objection with ⟨same, _⟩ | ⟨different, proper⟩
      · simp only [merge, same, ↓reduceIte]
        exact .inl ⟨trivial, trivial, rfl⟩
      · right
        simp only [merge, different, ↓reduceIte, UniqueTable.run_store]
        rcases searchable.insert_cases ⟨var, low, high⟩ with
          ⟨slot, content, result⟩ | ⟨slot, vacant, unused, result⟩ | ⟨exhausted, unused, result⟩
        · exact .inl ⟨slot, proper, content, by rw [result]⟩
        · exact .inr (.inl ⟨slot, proper, vacant, unused, by rw [result]⟩)
        · exact .inr (.inr ⟨proper, exhausted, unused, by rw [result]⟩)

/-- Making a node keeps the store searchable, whatever it holds. -/
theorem Searchable.make (searchable : table.Searchable) (var : Var) (low high : Ref) :
    (finalState ((UniqueTable.make var low high).run table)).Searchable := by
  rcases searchable.run_make_cases var low high with
    ⟨_, _, run⟩ | ⟨_, _, run⟩ | ⟨_, _, _, run⟩ | ⟨_, _, vacant, _, run⟩ | ⟨_, _, _, run⟩
  case inr.inr.inr.inl =>
    rw [run]
    exact searchable.occupy vacant
  all_goals
    rw [run]
    exact searchable

/-- Making a node keeps the store well formed and keeps all its ids. -/
theorem WellFormed.make (wellFormed : table.WellFormed) (var : Var) (low high : Ref) :
    (finalState ((UniqueTable.make var low high).run table)).WellFormed ∧
      (finalState ((UniqueTable.make var low high).run table)).Extends table := by
  rcases wellFormed.searchable.run_make_cases var low high with
    ⟨_, _, run⟩ | ⟨_, _, run⟩ | ⟨_, _, _, run⟩ | ⟨_, proper, vacant, _, run⟩ | ⟨_, _, _, run⟩
  case inr.inr.inr.inl =>
    rw [run]
    exact ⟨wellFormed.occupy proper vacant, extends_occupy (content?_of_probeFrom_vacant vacant) _⟩
  all_goals
    rw [run]
    exact ⟨wellFormed, .refl table⟩

/-- The store becomes the other one by making nodes, one after the other. -/
def Develops : UniqueTable → UniqueTable → Prop :=
  Relation.ReflTransGen fun earlier later =>
    ∃ var low high, later = finalState ((UniqueTable.make var low high).run earlier)

theorem Develops.searchable (develops : table.Develops later) (searchable : table.Searchable) :
    later.Searchable := by
  induction develops with
  | refl => exact searchable
  | tail _ made kept =>
      obtain ⟨var, low, high, rfl⟩ := made
      exact kept.make var low high

theorem Develops.grown (develops : table.Develops later) (wellFormed : table.WellFormed) :
    later.WellFormed ∧ later.Extends table := by
  induction develops with
  | refl => exact ⟨wellFormed, .refl table⟩
  | tail _ made kept =>
      obtain ⟨var, low, high, rfl⟩ := made
      have next := kept.1.make var low high
      exact ⟨next.1, next.2.trans kept.2⟩

end UniqueTable

namespace SessionM

variable {α β : Type} {session : Session}

/-! ## Single steps -/

theorem run_record (event : Event) (session : Session) :
    (record event).run session =
      .ok () { session with journal := session.journal.record event } := rfl

theorem run_query (question : Manager → Except Failure α) (session : Session) :
    (query question).run session = match question session.toManager with
      | .ok answer => .ok answer session
      | .error failure => .error failure session := rfl

theorem run_query_of_ok {question : Manager → Except Failure α} {answer : α}
    (answered : question session.toManager = .ok answer) :
    (query question).run session = .ok answer session := by
  rw [run_query, answered]

theorem run_query_of_error {question : Manager → Except Failure α} {failure : Failure}
    (refused : question session.toManager = .error failure) :
    (query question).run session = .error failure session := by
  rw [run_query, refused]

theorem run_remember (key : Key) (result : Ref) (session : Session) :
    (remember key result).run session =
      .ok () { session with memo := session.memo.remember key result } := rfl

theorem run_lookUp_of_some {key : Key} {result : Ref}
    (found : session.memo.find? key = some result) :
    (lookUp key).run session =
      .ok (some result) { session with memo := session.memo.count key } := by
  simp only [lookUp, Memo.lookUp, EStateM.run_bind, EStateM.run_modifyGet, found]
  rfl

theorem run_lookUp_of_none {key : Key} (missed : session.memo.find? key = none) :
    (lookUp key).run session = .ok none
      { session with
        memo := session.memo.count key, journal := session.journal.record (.missed key) } := by
  simp only [lookUp, Memo.lookUp, EStateM.run_bind, EStateM.run_modifyGet, missed]
  rfl

/-- A lookup answers what is remembered and changes only counts and the journal. -/
theorem run_lookUp (key : Key) (session : Session) :
    ∃ journal, (lookUp key).run session =
      .ok (session.memo.find? key)
        { session with memo := session.memo.count key, journal := journal } := by
  cases found : session.memo.find? key with
  | some result => exact ⟨session.journal, run_lookUp_of_some found⟩
  | none => exact ⟨session.journal.record (.missed key), run_lookUp_of_none found⟩

theorem run_query_var_of_some {ref : Ref} {var : Var}
    (tested : session.table.var? ref = some var) :
    (query (·.var ref)).run session = .ok var session :=
  run_query_of_ok (by rw [Manager.var_eq, tested])

theorem run_query_var_of_none {ref : Ref} (unknown : session.table.var? ref = none) :
    (query (·.var ref)).run session =
      .error (.violation (.unknownNode ref)) session :=
  run_query_of_error (by rw [Manager.var_eq, unknown])

theorem run_query_node_of_some {ref : Ref} {node : Node}
    (content : session.table.node? ref = some node) :
    (query (·.node ref)).run session = .ok node session :=
  run_query_of_ok (by rw [Manager.node_eq, content])

theorem run_onTable (action : StoreM α) (session : Session) :
    (onTable action).run session = match action.run session.table with
      | .ok answer table => .ok answer { session with table := table }
      | .error failure table => .error failure { session with table := table } := rfl

theorem run_onMemo (action : EStateM Failure Memo α) (session : Session) :
    (onMemo action).run session = match action.run session.memo with
      | .ok answer memo => .ok answer { session with memo := memo }
      | .error failure memo => .error failure { session with memo := memo } := rfl

theorem run_publish (node : Node) (session : Session) :
    (publish node).run session = (onTable (UniqueTable.store node)).run session := by
  rw [run_onTable, UniqueTable.run_store]
  cases inserted : session.table.insert node <;> simp only [publish, EStateM.run, inserted]

theorem run_onTable_make (var : Var) (low high : Ref) (session : Session) :
    (onTable (UniqueTable.make var low high)).run session =
      match session.table.objection? var low high with
      | some violation => .error (.violation violation) session
      | none => (onTable (UniqueTable.merge var low high)).run session := by
  rw [run_onTable, UniqueTable.run_make]
  cases session.table.objection? var low high <;> rfl

/-- Making a node concerns the store and the journal only. -/
theorem run_make (var : Var) (low high : Ref) (session : Session) :
    ∃ journal, (make var low high).run session =
      (onTable (UniqueTable.make var low high)).run { session with journal := journal } := by
  simp only [make]
  rw [run_bind_of_ok (run_record _ _)]
  let asked : Session := { session with journal := session.journal.record (.make var low high) }
  change ∃ journal, EStateM.run _ asked = (onTable _).run { asked with journal := journal }
  generalize asked = session
  by_cases redundant : low = high ∧ var ≠ terminalVar ∧ session.table.Knows low
  · obtain ⟨rfl, usable, known⟩ := redundant
    obtain ⟨lowVar, lowTested⟩ := UniqueTable.knows_iff_var?.1 known
    refine ⟨session.journal.record (.redundant low low), ?_⟩
    simp only [usable, ↓reduceIte, run_onTable_make, UniqueTable.objection?, lowTested]
    rw [run_bind_of_ok (run_query_var_of_some lowTested),
      run_bind_of_ok (run_query_var_of_some lowTested), run_bind_of_ok (run_record _ _)]
    simp only [UniqueTable.merge, ↓reduceIte]
    rfl
  refine ⟨session.journal, ?_⟩
  change _ = EStateM.run _ session
  simp only [run_onTable_make, UniqueTable.objection?]
  by_cases reserved : var = terminalVar
  · simp only [reserved, ↓reduceIte]
    rfl
  simp only [reserved, ↓reduceIte]
  cases lowTested : session.table.var? low with
  | none => rw [run_bind_of_error (run_query_var_of_none lowTested)]
  | some lowVar =>
      rw [run_bind_of_ok (run_query_var_of_some lowTested)]
      cases highTested : session.table.var? high with
      | none => rw [run_bind_of_error (run_query_var_of_none highTested)]
      | some highVar =>
          have different : low ≠ high := fun same =>
            redundant ⟨same, reserved, UniqueTable.knows_iff_var?.2 ⟨lowVar, lowTested⟩⟩
          rw [run_bind_of_ok (run_query_var_of_some highTested)]
          simp only [different, ↓reduceIte]
          by_cases lowBefore : lowVar ≤ var
          · simp only [lowBefore, ↓reduceIte]
            rfl
          by_cases highBefore : highVar ≤ var
          · simp only [lowBefore, highBefore, ↓reduceIte]
            rfl
          · simp only [lowBefore, highBefore, ↓reduceIte, UniqueTable.merge, different]
            exact run_publish _ _

/-! ## Computations that let the store grow -/

/-- The computation changes the store by making nodes only, also if it fails. -/
def Grows (action : SessionM α) : Prop :=
  ∀ session : Session, session.table.Develops (finalState (action.run session)).table

theorem Grows.of_table_eq {action : SessionM α}
    (kept : ∀ session, (finalState (action.run session)).table = session.table) :
    Grows action := by
  intro session
  rw [kept session]
  exact .refl

theorem Grows.pure (answer : α) : Grows (Pure.pure answer) :=
  .of_table_eq fun _ => rfl

theorem Grows.throw (failure : Failure) : Grows (MonadExcept.throw failure : SessionM α) :=
  .of_table_eq fun _ => rfl

theorem Grows.record (event : Event) : Grows (SessionM.record event) :=
  .of_table_eq fun _ => rfl

theorem Grows.query (question : Manager → Except Failure α) : Grows (SessionM.query question) := by
  apply Grows.of_table_eq
  intro session
  rw [run_query]
  cases question session.toManager <;> rfl

theorem Grows.inspect (question : Manager → α) : Grows (SessionM.inspect question) :=
  .of_table_eq fun _ => rfl

theorem Grows.lookUp (key : Key) : Grows (SessionM.lookUp key) := by
  apply Grows.of_table_eq
  intro session
  obtain ⟨journal, run⟩ := run_lookUp key session
  rw [run]
  rfl

theorem Grows.remember (key : Key) (result : Ref) : Grows (SessionM.remember key result) :=
  .of_table_eq fun _ => rfl

theorem Grows.onMemo (action : EStateM Failure Memo α) : Grows (SessionM.onMemo action) := by
  apply Grows.of_table_eq
  intro session
  rw [run_onMemo]
  cases action.run session.memo <;> rfl

theorem Grows.bind {action : SessionM α} {next : α → SessionM β} (first : Grows action)
    (second : ∀ answer, Grows (next answer)) : Grows (action >>= next) := by
  intro session
  have begun := first session
  cases run : action.run session with
  | ok answer middle =>
      rw [run] at begun
      rw [run_bind_of_ok run]
      exact begun.trans (second answer middle)
  | error failure middle =>
      rw [run] at begun
      rw [run_bind_of_error run]
      exact begun

theorem Grows.make (var : Var) (low high : Ref) : Grows (DecisionDiagram.make var low high) := by
  intro session
  obtain ⟨journal, run⟩ := run_make var low high session
  rw [run, run_onTable]
  apply Relation.ReflTransGen.single
  refine ⟨var, low, high, ?_⟩
  cases (UniqueTable.make var low high).run session.table <;> rfl

theorem Grows.foldlM {γ : Type} {step : β → γ → SessionM β}
    (each : ∀ state item, Grows (step state item)) (items : List γ) (start : β) :
    Grows (items.foldlM step start) := by
  induction items generalizing start with
  | nil => exact .pure start
  | cons item rest ih =>
      rw [List.foldlM_cons]
      exact .bind (each start item) fun state => ih state

/-! ## Operators -/

theorem Grows.negateWithin (depth : Nat) (operand : Ref) :
    Grows (DecisionDiagram.negateWithin depth operand) := by
  induction depth generalizing operand with
  | zero => exact .throw _
  | succ depth ih =>
      simp only [DecisionDiagram.negateWithin]
      apply Grows.bind (.record _)
      intro _
      cases operand.constant? with
      | some value => exact .pure _
      | none =>
          apply Grows.bind (.lookUp _)
          intro found
          cases found with
          | some result => exact .bind (.record _) fun _ => .pure _
          | none =>
              apply Grows.bind (.query _)
              intro node
              apply Grows.bind (ih node.low)
              intro low
              apply Grows.bind (ih node.high)
              intro high
              exact .bind (.make _ _ _) fun result => .bind (.remember _ _) fun _ => .pure _

theorem Grows.applyWithin (depth : Nat) (op : BinaryOp) (left right : Ref) :
    Grows (DecisionDiagram.applyWithin depth op left right) := by
  induction depth generalizing left right with
  | zero => exact .throw _
  | succ depth ih =>
      simp only [DecisionDiagram.applyWithin]
      split
      · exact .pure _
      · exact .negateWithin depth _
      · apply Grows.bind (.lookUp _)
        intro found
        cases found with
        | some result => exact .bind (.record _) fun _ => .pure _
        | none =>
            apply Grows.bind (.query _)
            intro leftVar
            apply Grows.bind (.query _)
            intro rightVar
            apply Grows.bind (.query _)
            intro leftBranches
            apply Grows.bind (.query _)
            intro rightBranches
            apply Grows.bind (ih _ _)
            intro low
            apply Grows.bind (ih _ _)
            intro high
            apply Grows.bind (.make _ _ _)
            intro result
            apply Grows.bind (.record _)
            intro _
            exact .bind (.remember _ _) fun _ => .pure _

theorem Grows.chooseWithin (depth : Nat) (condition yes no : Ref) :
    Grows (DecisionDiagram.chooseWithin depth condition yes no) := by
  induction depth generalizing condition yes no with
  | zero => exact .throw _
  | succ depth ih =>
      simp only [DecisionDiagram.chooseWithin]
      apply Grows.bind (.record _)
      intro _
      split
      · exact .pure _
      · exact .negateWithin depth _
      · apply Grows.bind (.lookUp _)
        intro found
        cases found with
        | some result => exact .bind (.record _) fun _ => .pure _
        | none =>
            apply Grows.bind (.query _)
            intro conditionVar
            apply Grows.bind (.query _)
            intro yesVar
            apply Grows.bind (.query _)
            intro noVar
            apply Grows.bind (.query _)
            intro conditionBranches
            apply Grows.bind (.query _)
            intro yesBranches
            apply Grows.bind (.query _)
            intro noBranches
            apply Grows.bind (ih _ _ _)
            intro low
            apply Grows.bind (ih _ _ _)
            intro high
            exact .bind (.make _ _ _) fun result => .bind (.remember _ _) fun _ => .pure _

theorem Grows.apply (op : BinaryOp) (left right : Ref) :
    Grows (DecisionDiagram.apply op left right) :=
  .bind (.record _) fun _ => .applyWithin nestingLimit op left right

end SessionM
end DecisionDiagram
