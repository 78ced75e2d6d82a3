import DecisionDiagram.Proofs.Growth
import DecisionDiagram.Proofs.Issuing
import DecisionDiagram.Script

/-!
# Reachable managers

A manager is reachable if some series of calls leads to it from a new manager.  Which
calls are permitted is a parameter: safe calls store nodes through checks only, honest
calls in addition leave it to the operators what is remembered.
-/

namespace DecisionDiagram

namespace Call

variable {ρ : Type}

/-- Every call but one that stores a content without checks. -/
def isSafe : Call ρ → Bool
  | .table (.insert ..) => false
  | _ => true

/-- Every safe call but one that dictates a remembered result. -/
def isHonest : Call ρ → Bool
  | .table (.insert ..) => false
  | .memo (.remember ..) => false
  | _ => true

/-- What becomes of a call to a session. -/
def outcome (call : Call Ref) (session : Session) : Outcome :=
  (Stepper.run call.perform session).1

/-- The session that a call leaves behind, whether it was answered or failed. -/
def after (call : Call Ref) (session : Session) : Session :=
  (Stepper.run call.perform session).2

theorem after_eq (call : Call Ref) (session : Session) :
    call.after session = finalState (call.perform.run session) := by
  simp only [after, Stepper.run]
  cases call.perform.run session <;> rfl

end Call

/-- The managers to which permitted calls lead.  The journal is free at every call,
since it never influences what a manager does. -/
inductive Manager.Reachable (permitted : Call Ref → Bool) : Manager → Prop where
  /-- A new manager. -/
  | created {limit : Nat} {budget : Budget} {before after : Journal} {manager : Manager} :
      (Manager.create limit budget).run before = .ok manager after →
      Manager.Reachable permitted manager
  /-- A manager after a permitted call. -/
  | called {session : Session} {call : Call Ref} :
      Manager.Reachable permitted session.toManager → permitted call = true →
      Manager.Reachable permitted (call.after session).toManager

/-! ## Series of calls -/

namespace Session

/-- The session after a series of calls. -/
def run : Session → List (Call Ref) → Session
  | session, [] => session
  | session, call :: rest => run (call.after session) rest

/-- A session of a new manager with room for four nodes and one result. -/
def fresh : Session :=
  { table := .empty 4 (by decide) (by decide)
    memo := .empty 1 0 (by decide)
    budget := ⟨64, 24⟩
    journal := {} }

theorem reachable_fresh (permitted : Call Ref → Bool) :
    fresh.toManager.Reachable permitted :=
  @Manager.Reachable.created permitted 64 ⟨64, 24⟩ {} {} fresh.toManager rfl

end Session

theorem Manager.Reachable.run {permitted : Call Ref → Bool} {session : Session}
    (reachable : session.toManager.Reachable permitted) (calls : List (Call Ref))
    (allowed : ∀ call ∈ calls, permitted call = true) :
    (session.run calls).toManager.Reachable permitted := by
  induction calls generalizing session with
  | nil => exact reachable
  | cons call rest ih =>
      apply ih (.called reachable (allowed call List.mem_cons_self))
      exact fun later member => allowed later (List.mem_cons_of_mem call member)

/-! ## New managers -/

theorem UniqueTable.eq_empty_of_run_withCapacity {limit capacity : Nat} {before after : Journal}
    {table : UniqueTable} (run : (withCapacity limit capacity).run before = .ok table after) :
    ∃ capacity_pos capacity_le, table = empty capacity capacity_pos capacity_le := by
  unfold withCapacity at run
  simp only at run
  split at run
  case isTrue supported =>
    obtain ⟨_, _, _, run⟩ := exists_of_run_bind_eq_ok run
    obtain ⟨_, _, _, run⟩ := exists_of_run_bind_eq_ok run
    cases run
    exact ⟨supported.1, supported.2, rfl⟩
  case isFalse => cases run

/-- A new unique table is empty and as large as its bytes pay for. -/
theorem UniqueTable.eq_empty_of_run_ofBudget {limit : Nat} {bytes : UInt64}
    {before after : Journal} {table : UniqueTable}
    (run : (ofBudget limit bytes).run before = .ok table after) :
    ∃ capacity_pos capacity_le, table =
      empty (min (bytes.toNat / slotBytes) maxCapacity) capacity_pos capacity_le := by
  unfold ofBudget at run
  simp only [toNat_div_slotBytes] at run
  split at run
  case isTrue clamped =>
    obtain ⟨_, _, _, run⟩ := exists_of_run_bind_eq_ok run
    rw [Nat.min_eq_right (Nat.le_of_lt clamped)]
    exact eq_empty_of_run_withCapacity run
  case isFalse fits =>
    split at run
    case isTrue => cases run
    case isFalse =>
      rw [Nat.min_eq_left (Nat.le_of_not_lt fits)]
      exact eq_empty_of_run_withCapacity run

theorem Memo.eq_empty_of_run_withBits {limit bits : Nat} {before after : Journal} {memo : Memo}
    (run : (withBits limit bits).run before = .ok memo after) :
    ∃ capacity mask mask_lt, memo = empty capacity mask mask_lt := by
  simp only [withBits] at run
  split at run
  case isTrue =>
    obtain ⟨_, _, _, run⟩ := exists_of_run_bind_eq_ok run
    obtain ⟨_, _, _, run⟩ := exists_of_run_bind_eq_ok run
    obtain ⟨_, _, _, run⟩ := exists_of_run_bind_eq_ok run
    obtain ⟨_, _, _, run⟩ := exists_of_run_bind_eq_ok run
    cases run
    exact ⟨_, _, _, rfl⟩
  case isFalse => cases run

/-- A new computed table remembers nothing. -/
theorem Memo.eq_empty_of_run_ofBudget {limit : Nat} {bytes : UInt64} {before after : Journal}
    {memo : Memo} (run : (ofBudget limit bytes).run before = .ok memo after) :
    ∃ capacity mask mask_lt, memo = empty capacity mask mask_lt := by
  unfold ofBudget at run
  obtain ⟨_, _, _, run⟩ := exists_of_run_bind_eq_ok run
  split at run
  case h_1 => cases run
  case h_2 =>
    obtain ⟨_, _, _, run⟩ := exists_of_run_bind_eq_ok run
    split at run
    case isTrue =>
      obtain ⟨_, _, _, run⟩ := exists_of_run_bind_eq_ok run
      exact eq_empty_of_run_withBits run
    case isFalse => exact eq_empty_of_run_withBits run

/-- The tables of a new manager are empty. -/
theorem Manager.tables_of_run_create {limit : Nat} {budget : Budget} {before after : Journal}
    {manager : Manager} (run : (create limit budget).run before = .ok manager after) :
    (∃ capacity_pos capacity_le, manager.table =
      .empty (min (budget.nodeBytes.toNat / slotBytes) maxCapacity) capacity_pos capacity_le) ∧
    ∃ capacity mask mask_lt, manager.memo = .empty capacity mask mask_lt := by
  simp only [create] at run
  obtain ⟨table, _, tableRun, run⟩ := exists_of_run_bind_eq_ok run
  obtain ⟨memo, _, memoRun, run⟩ := exists_of_run_bind_eq_ok run
  obtain ⟨_, _, _, run⟩ := exists_of_run_bind_eq_ok run
  cases run
  exact ⟨UniqueTable.eq_empty_of_run_ofBudget tableRun, Memo.eq_empty_of_run_ofBudget memoRun⟩

theorem Manager.wellFormed_of_run_create {limit : Nat} {budget : Budget} {before after : Journal}
    {manager : Manager} (run : (create limit budget).run before = .ok manager after) :
    manager.table.WellFormed := by
  obtain ⟨⟨capacity_pos, capacity_le, empty⟩, _⟩ := tables_of_run_create run
  rw [empty]
  exact UniqueTable.wellFormed_empty _ capacity_pos capacity_le

/-! ## Safe calls -/

namespace SessionM

theorem Grows.perform {call : Call Ref} (safe : call.isSafe = true) : Grows call.perform := by
  cases call with
  | make | makeVar | makeNegatedVar => exact .bind (.make _ _ _) fun _ => .pure _
  | negate operand => exact .bind (.negateWithin _ _) fun _ => .pure _
  | apply op left right => exact .bind (.apply _ _ _) fun _ => .pure _
  | choose condition yes no => exact .bind (.chooseWithin _ _ _ _) fun _ => .pure _
  | conjoin operands | disjoin operands =>
      refine .bind (.bind (.record _) fun _ => ?_) fun _ => .pure _
      exact .foldlM (.apply _) operands _
  | table call =>
      cases call with
      | insert => simp [Call.isSafe] at safe
      | _ => exact .of_table_eq fun _ => rfl
  | memo call => exact .onMemo _
  | constant | isConstant | isTerminal => exact .pure _
  | contains | nodeCount | isEmpty | describe | budget => exact .bind (.inspect _) fun _ => .pure _
  | _ => exact .bind (.query _) fun _ => .pure _

end SessionM

/-- A safe call keeps the store well formed and keeps all its ids. -/
theorem Call.after_grows {call : Call Ref} {session : Session} (safe : call.isSafe = true)
    (wellFormed : session.table.WellFormed) :
    (call.after session).table.WellFormed ∧ (call.after session).table.Extends session.table := by
  rw [after_eq]
  exact (SessionM.Grows.perform safe session).grown wellFormed

/-- Safe calls lead to well-formed stores. -/
theorem Manager.Reachable.wellFormed {manager : Manager}
    (reachable : manager.Reachable Call.isSafe) : manager.table.WellFormed := by
  induction reachable with
  | created run => exact wellFormed_of_run_create run
  | called before safe wellFormed => exact (Call.after_grows safe wellFormed).1

/-! ## All calls -/

/-- Every call keeps the store searchable, also one that stores a content without checks. -/
theorem Call.searchable_after (call : Call Ref) {session : Session}
    (searchable : session.table.Searchable) : (call.after session).table.Searchable := by
  rw [after_eq]
  by_cases safe : call.isSafe = true
  case pos => exact (SessionM.Grows.perform safe session).searchable searchable
  case neg =>
    cases call with
    | table call =>
        cases call with
        | insert var low high =>
            have kept := (searchable.request ⟨var, low, high⟩).1
            simp only [perform, SessionM.run_onTable]
            change (finalState ((TableCall.insert var low high).perform.run _)).Searchable at kept
            cases run : (TableCall.insert var low high).perform.run session.table <;>
              rwa [run] at kept
        | _ => exact absurd rfl safe
    | _ => exact absurd rfl safe

/-- Whatever calls lead to a store, it is searchable. -/
theorem Manager.Reachable.searchable {permitted : Call Ref → Bool} {manager : Manager}
    (reachable : manager.Reachable permitted) : manager.table.Searchable := by
  induction reachable with
  | created run => exact (wellFormed_of_run_create run).searchable
  | called _ _ searchable => exact Call.searchable_after _ searchable

end DecisionDiagram
