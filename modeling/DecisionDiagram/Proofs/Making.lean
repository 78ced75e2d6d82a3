import DecisionDiagram.Proofs.Canonicity
import DecisionDiagram.Proofs.Holding

/-!
# When a node can be made

Six things can speak against a node, and the first of them is what its caller is told.  If
nothing does, the node is named: under the id that stands for its function already if there is
one, and else under a new id, which takes a vacant slot.  As the store is canonical, comparing
contents tells whether the function is new.
-/

namespace DecisionDiagram

namespace UniqueTable

variable {table : UniqueTable} {var : Var} {low high : Ref} {rank : Nat}
variable {failure : Failure} {violation : Violation}

/-! ## Objections -/

/-- What speaks against a node, each cause by itself.  Of several causes that of the lowest rank
comes first. -/
inductive Objection (table : UniqueTable) (var : Var) (low high : Ref) :
    (rank : Nat) → Failure → Prop where
  | reservedVariable : var = terminalVar →
      table.Objection var low high 0 (.violation .reservedVariable)
  | unknownLow : ¬table.Knows low →
      table.Objection var low high 1 (.violation (.unknownNode low))
  | unknownHigh : ¬table.Knows high →
      table.Objection var low high 2 (.violation (.unknownNode high))
  | lowOrdering {node : Node} : low ≠ high → table.node? low = some node → node.var ≤ var →
      table.Objection var low high 3 (.violation (.ordering var node.var))
  | highOrdering {node : Node} : low ≠ high → table.node? high = some node → node.var ≤ var →
      table.Objection var low high 4 (.violation (.ordering var node.var))
  | full : low ≠ high → (∀ ref, table.node? ref ≠ some ⟨var, low, high⟩) →
      table.capacity ≤ table.size →
      table.Objection var low high 5 (.error (.capacityExhausted table.capacity))

/-- Nothing of a lower rank speaks against the node. -/
def Passes (table : UniqueTable) (var : Var) (low high : Ref) (rank : Nat) : Prop :=
  ∀ earlier < rank, ∀ failure, ¬table.Objection var low high earlier failure

/-- The failure is the first objection to the node. -/
def Refuses (table : UniqueTable) (var : Var) (low high : Ref) (failure : Failure) : Prop :=
  ∃ rank, table.Objection var low high rank failure ∧ table.Passes var low high rank

/-- The variable is usable, and both branches are known and are the same or test later variables
only. -/
structure Ordered (table : UniqueTable) (var : Var) (low high : Ref) : Prop where
  usable : var ≠ terminalVar
  low_known : table.Knows low
  high_known : table.Knows high
  before : low = high ∨
    ∀ child ∈ [low, high], ∀ node, table.node? child = some node → var < node.var

theorem Proper.ordered (proper : table.Proper ⟨var, low, high⟩) : table.Ordered var low high where
  usable := UInt32.ne_of_lt proper.low_follows.lt_terminalVar
  low_known := proper.low_follows.knows
  high_known := proper.high_follows.knows
  before := by
    right
    intro child member node content
    simp only [List.mem_cons, List.not_mem_nil, or_false] at member
    rcases member with rfl | rfl
    · exact proper.low_follows.lt_of_node? content
    · exact proper.high_follows.lt_of_node? content

/-- Only the lack of a slot speaks against an ordered node. -/
theorem Ordered.eq_full (ordered : table.Ordered var low high)
    (objection : table.Objection var low high rank failure) :
    rank = 5 ∧ low ≠ high ∧ (∀ ref, table.node? ref ≠ some ⟨var, low, high⟩) ∧
      table.capacity ≤ table.size := by
  have tests : ∀ child ∈ [low, high], ∀ {node : Node}, low ≠ high →
      table.node? child = some node → ¬node.var ≤ var := by
    intro child member node different content
    exact UInt32.not_le.2 (ordered.before.resolve_left different child member node content)
  cases objection with
  | reservedVariable reserved => exact absurd reserved ordered.usable
  | unknownLow unknown => exact absurd ordered.low_known unknown
  | unknownHigh unknown => exact absurd ordered.high_known unknown
  | lowOrdering different content before =>
      exact absurd before (tests low (by simp) different content)
  | highOrdering different content before =>
      exact absurd before (tests high (by simp) different content)
  | full different unused full => exact ⟨rfl, different, unused, full⟩

/-! ## The order of the checks -/

theorem passes_zero : table.Passes var low high 0 :=
  fun _ earlier => absurd earlier (Nat.not_lt_zero _)

theorem Passes.succ (passes : table.Passes var low high rank)
    (fine : ∀ failure, ¬table.Objection var low high rank failure) :
    table.Passes var low high (rank + 1) := by
  intro earlier before
  rcases Nat.lt_or_eq_of_le (Nat.le_of_lt_succ before) with sooner | rfl
  · exact passes earlier sooner
  · exact fine

/-- The checks are made in the order of the ranks: a node that gets to one of them passes those
before it. -/
theorem refuses_of_objection? (objected : table.objection? var low high = some violation) :
    table.Refuses var low high (.violation violation) := by
  simp only [objection?] at objected
  split at objected
  case isTrue reserved =>
    cases objected
    exact ⟨0, .reservedVariable reserved, passes_zero⟩
  case isFalse usable =>
    have inUse : ∀ {child : Ref} {next : Var}, table.var? child = some next → next ≤ var →
        ∃ node, table.node? child = some node ∧ node.var = next := fun tested before =>
      exists_node?_of_var? tested
        (UInt32.ne_of_lt (UInt32.lt_of_le_of_lt before (lt_terminalVar usable)))
    have passes : table.Passes var low high 1 := passes_zero.succ fun failure objection => by
      cases objection with
      | reservedVariable reserved => exact usable reserved
    split at objected
    case h_1 lowUnknown =>
      cases objected
      exact ⟨1, .unknownLow (by simp [knows_iff_var?, lowUnknown]), passes⟩
    case h_2 lowVar lowTested =>
      have passes := passes.succ fun failure objection => by
        cases objection with
        | unknownLow unknown => exact unknown (knows_iff_var?.2 ⟨lowVar, lowTested⟩)
      split at objected
      case h_1 highUnknown =>
        cases objected
        exact ⟨2, .unknownHigh (by simp [knows_iff_var?, highUnknown]), passes⟩
      case h_2 highVar highTested =>
        have passes := passes.succ fun failure objection => by
          cases objection with
          | unknownHigh unknown => exact unknown (knows_iff_var?.2 ⟨highVar, highTested⟩)
        split at objected
        case isTrue => cases objected
        case isFalse different =>
          split at objected
          case isTrue before =>
            cases objected
            obtain ⟨node, content, rfl⟩ := inUse lowTested before
            exact ⟨3, .lowOrdering different content before, passes⟩
          case isFalse lowAfter =>
            have passes := passes.succ fun failure objection => by
              cases objection with
              | lowOrdering _ content before =>
                  rw [var?_of_node? content] at lowTested
                  cases lowTested
                  exact lowAfter before
            split at objected
            case isTrue before =>
              cases objected
              obtain ⟨node, content, rfl⟩ := inUse highTested before
              exact ⟨4, .highOrdering different content before, passes⟩
            case isFalse => cases objected

/-! ## Making a node -/

/-- The function "if `var` then `high` else `low`". -/
def choice (table : UniqueTable) (var : Var) (low high : Ref) : Assignment → Bool :=
  fun assignment =>
    if assignment var then table.function high assignment else table.function low assignment

/-- An id that was not in use is in use for a content, and nothing else has changed. -/
structure Mints (table later : UniqueTable) (node : Node) (ref : Ref) : Prop where
  capacity_eq : later.capacity = table.capacity
  size_eq : later.size = table.size + 1
  unused : table.node? ref = none
  content : later.node? ref = some node
  others : ∀ other ≠ ref, later.node? other = table.node? other

theorem Searchable.mints_occupy {slot : Nat} {node : Node} (searchable : table.Searchable)
    (vacant : table.probe node = .vacant slot) :
    table.Mints (table.occupy slot node) node (.ofSlot slot) := by
  have within := lt_capacity_of_probeFrom (table.home_lt node) (.inr vacant)
  have free := content?_of_probeFrom_vacant vacant
  constructor
  case capacity_eq => rfl
  case size_eq => exact searchable.size_occupy vacant
  case unused => rw [UniqueTable.node?_ofSlot within, free]
  case content => rw [node?_occupy within, if_pos rfl]
  case others =>
    intro other different
    rw [node?_occupy within, if_neg different]

theorem choice_self (table : UniqueTable) (var : Var) (ref : Ref) :
    table.choice var ref ref = table.function ref :=
  funext fun assignment => ite_self (table.function ref assignment)

/-- A new node stands for a new function. -/
theorem WellFormed.function_occupy {slot : Nat} (wellFormed : table.WellFormed)
    (proper : table.Proper ⟨var, low, high⟩)
    (vacant : table.probe ⟨var, low, high⟩ = .vacant slot)
    (unused : ∀ ref, table.node? ref ≠ some ⟨var, low, high⟩) :
    (table.occupy slot ⟨var, low, high⟩).function (.ofSlot slot) = table.choice var low high ∧
      ∀ known, table.Knows known → table.function known ≠ table.choice var low high := by
  have kept := wellFormed.occupy proper vacant
  have grown := extends_occupy (content?_of_probeFrom_vacant vacant) ⟨var, low, high⟩
  have content := (wellFormed.searchable.mints_occupy vacant).content
  have extended : ∀ {known}, table.Knows known →
      (table.occupy slot ⟨var, low, high⟩).function known = table.function known :=
    wellFormed.function_extend kept grown
  have same : (table.occupy slot ⟨var, low, high⟩).function (.ofSlot slot) =
      table.choice var low high := by
    rw [kept.function_of_node? content, extended proper.low_follows.knows,
      extended proper.high_follows.knows]
    rfl
  refine ⟨same, ?_⟩
  intro known inUse equal
  rw [← same, ← extended inUse] at equal
  obtain rfl := kept.ref_eq_of_function_eq (grown.knows inUse) (.inr ⟨_, content⟩) equal
  rcases inUse with terminal | ⟨node, earlier⟩
  · rw [node?_eq_none_of_isTerminal _ terminal] at content
    cases content
  · rw [grown.node? earlier] at content
    exact unused _ (earlier.trans content)

theorem ordered_of_objection? (allowed : table.objection? var low high = none)
    (same : low = high) : table.Ordered var low high := by
  have usable : var ≠ terminalVar := fun reserved => by simp [objection?, reserved] at allowed
  rcases known_or_proper_of_objection?_eq_none allowed with ⟨_, known⟩ | ⟨different, _⟩
  · exact ⟨usable, known, same ▸ known, .inl same⟩
  · exact absurd same different

end UniqueTable

/-! ## Calls -/

namespace Call

variable {session : Session} {var : Var} {low high ref : Ref}

theorem make_of_ok {later : UniqueTable}
    (run : (UniqueTable.make var low high).run session.table = .ok ref later) :
    (Call.make var low high).outcome session = .answered (.ref ref) ∧
      ((Call.make var low high).after session).toManager =
        { session.toManager with table := later } := by
  obtain ⟨journal, made⟩ := SessionM.run_make var low high session
  rw [SessionM.run_onTable, run] at made
  simp only [outcome, after, Stepper.run, perform, run_bind_of_ok made]
  exact ⟨rfl, rfl⟩

theorem make_of_error {failure : Failure} {later : UniqueTable}
    (run : (UniqueTable.make var low high).run session.table = .error failure later) :
    (Call.make var low high).outcome session = .failed failure ∧
      ((Call.make var low high).after session).toManager =
        { session.toManager with table := later } := by
  obtain ⟨journal, made⟩ := SessionM.run_make var low high session
  rw [SessionM.run_onTable, run] at made
  simp only [outcome, after, Stepper.run, perform, run_bind_of_error made]
  exact ⟨trivial, trivial⟩

/-- What becomes of making a node: it is answered with an id in use, or with a new id, or fails
with the first objection. -/
theorem make_cases (searchable : session.table.Searchable) (var : Var) (low high : Ref) :
    (∃ ref, (Call.make var low high).outcome session = .answered (.ref ref) ∧
      ((Call.make var low high).after session).toManager = session.toManager ∧
      session.table.Ordered var low high ∧
      ((low = high ∧ ref = low) ∨ session.table.node? ref = some ⟨var, low, high⟩)) ∨
    (∃ slot, (Call.make var low high).outcome session = .answered (.ref (.ofSlot slot)) ∧
      ((Call.make var low high).after session).toManager =
        { session.toManager with table := session.table.occupy slot ⟨var, low, high⟩ } ∧
      session.table.Proper ⟨var, low, high⟩ ∧
      session.table.probe ⟨var, low, high⟩ = .vacant slot ∧
      ∀ ref, session.table.node? ref ≠ some ⟨var, low, high⟩) ∨
    (∃ failure, (Call.make var low high).outcome session = .failed failure ∧
      ((Call.make var low high).after session).toManager = session.toManager ∧
      session.table.Refuses var low high failure) := by
  rcases searchable.run_make_cases var low high with
    ⟨violation, objected, run⟩ | ⟨allowed, same, run⟩ | ⟨slot, proper, content, run⟩ |
      ⟨slot, proper, vacant, unused, run⟩ | ⟨proper, exhausted, unused, run⟩
  · obtain ⟨failed, kept⟩ := make_of_error run
    exact .inr (.inr ⟨_, failed, kept, UniqueTable.refuses_of_objection? objected⟩)
  · obtain ⟨answered, kept⟩ := make_of_ok run
    exact .inl ⟨low, answered, kept, UniqueTable.ordered_of_objection? allowed same,
      .inl ⟨same, rfl⟩⟩
  · obtain ⟨answered, kept⟩ := make_of_ok run
    exact .inl ⟨_, answered, kept, proper.ordered, .inr (searchable.node?_ofSlot content)⟩
  · obtain ⟨answered, kept⟩ := make_of_ok run
    exact .inr (.inl ⟨slot, answered, kept, proper, vacant, UniqueTable.forall_node?_ne unused⟩)
  · obtain ⟨failed, kept⟩ := make_of_error run
    have full := searchable.size_eq_of_exhausted exhausted
    refine .inr (.inr ⟨_, failed, kept, 5, .full proper.different
      (UniqueTable.forall_node?_ne unused) full.ge, ?_⟩)
    intro earlier before failure objection
    have last := (proper.ordered.eq_full objection).1
    omega

theorem make_answered_iff (searchable : session.table.Searchable) :
    (∃ ref, (Call.make var low high).outcome session = .answered (.ref ref)) ↔
      session.table.Ordered var low high ∧
        (low = high ∨ (∃ ref, session.table.node? ref = some ⟨var, low, high⟩) ∨
          session.table.size < session.table.capacity) := by
  rcases make_cases searchable var low high with
    ⟨made, answered, _, ordered, ⟨same, _⟩ | content⟩ | ⟨slot, answered, _, proper, vacant, _⟩ |
      ⟨failure, failed, _, rank, objection, _⟩
  · exact iff_of_true ⟨made, answered⟩ ⟨ordered, .inl same⟩
  · exact iff_of_true ⟨made, answered⟩ ⟨ordered, .inr (.inl ⟨made, content⟩)⟩
  · have within := UniqueTable.lt_capacity_of_probeFrom (session.table.home_lt _) (.inr vacant)
    have room := searchable.size_lt_of_vacant within
      (UniqueTable.content?_of_probeFrom_vacant vacant)
    exact iff_of_true ⟨_, answered⟩ ⟨proper.ordered, .inr (.inr room)⟩
  · refine iff_of_false (fun ⟨ref, answered⟩ => ?_) ?_
    · rw [failed] at answered
      cases answered
    · rintro ⟨ordered, space⟩
      obtain ⟨_, different, unused, full⟩ := ordered.eq_full objection
      rcases space with same | ⟨ref, content⟩ | room
      · exact different same
      · exact unused ref content
      · exact Nat.not_lt.2 full room

/-- An answer stands for the choice between the branches, and is new only if this function is. -/
theorem make_answered (wellFormed : session.table.WellFormed)
    (answered : (Call.make var low high).outcome session = .answered (.ref ref)) :
    (((Call.make var low high).after session).toManager = session.toManager ∧
      session.table.Knows ref ∧ session.table.function ref = session.table.choice var low high) ∨
    (∃ later : UniqueTable, ((Call.make var low high).after session).toManager =
        { session.toManager with table := later } ∧
      session.table.Mints later ⟨var, low, high⟩ ref ∧
      later.function ref = session.table.choice var low high ∧
      ∀ known, session.table.Knows known →
        session.table.function known ≠ session.table.choice var low high) := by
  rcases make_cases wellFormed.searchable var low high with
    ⟨made, again, kept, ordered, inUse⟩ | ⟨slot, again, grown, proper, vacant, unused⟩ |
      ⟨failure, failed, _⟩
  · cases answered.symm.trans again
    refine .inl ⟨kept, ?_⟩
    rcases inUse with ⟨rfl, rfl⟩ | content
    · exact ⟨ordered.low_known, (session.table.choice_self var ref).symm⟩
    · exact ⟨.inr ⟨_, content⟩, wellFormed.function_of_node? content⟩
  · cases answered.symm.trans again
    exact .inr ⟨_, grown, wellFormed.searchable.mints_occupy vacant,
      wellFormed.function_occupy proper vacant unused⟩
  · cases answered.symm.trans failed

end Call

/-- Whatever safe calls were made before: a node is made exactly if its variable is usable, its
branches are known, and they are the same or the node is ordered and has a slot.  The answer
stands for the choice between the branches.  Its id is new exactly if no id stood for this
function before, and otherwise nothing changes.  A call that is not answered changes nothing and
fails with the first objection. -/
theorem make_of_reachable {session : Session} (reachable : session.toManager.Reachable Call.isSafe)
    (var : Var) (low high : Ref) :
    let call : Call Ref := .make var low high
    let later := call.after session
    let choice := session.table.choice var low high
    ((∃ ref, call.outcome session = .answered (.ref ref)) ↔
      var ≠ terminalVar ∧ session.contains low = true ∧ session.contains high = true ∧
        (low = high ∨
          (∀ child ∈ [low, high], ∀ node, session.table.node? child = some node →
            var < node.var) ∧
          ((∃ ref, session.table.node? ref = some ⟨var, low, high⟩) ∨
            session.table.size < session.table.capacity))) ∧
    (∀ ref, call.outcome session = .answered (.ref ref) →
      later.contains ref = true ∧ later.table.function ref = choice ∧
      later.memo = session.memo ∧ later.budget = session.budget ∧
      (session.table.Mints later.table ⟨var, low, high⟩ ref ↔
        ∀ known, session.contains known = true → session.table.function known ≠ choice) ∧
      ((∃ known, session.contains known = true ∧ session.table.function known = choice) →
        later.toManager = session.toManager)) ∧
    ((∀ ref, call.outcome session ≠ .answered (.ref ref)) →
      later.toManager = session.toManager ∧
        ∃ failure, call.outcome session = .failed failure ∧
          session.table.Refuses var low high failure) := by
  intro call later choice
  have wellFormed := reachable.wellFormed
  simp only [Manager.contains_iff_knows]
  refine ⟨?answered, ?made, ?refused⟩
  case answered =>
    rw [Call.make_answered_iff wellFormed.searchable]
    constructor
    · rintro ⟨⟨usable, lowKnown, highKnown, before⟩, space⟩
      refine ⟨usable, lowKnown, highKnown, ?_⟩
      by_cases same : low = high
      · exact .inl same
      · exact .inr ⟨before.resolve_left same, space.resolve_left same⟩
    · rintro ⟨usable, lowKnown, highKnown, same | ⟨before, space⟩⟩
      · exact ⟨⟨usable, lowKnown, highKnown, .inl same⟩, .inl same⟩
      · exact ⟨⟨usable, lowKnown, highKnown, .inr before⟩, .inr space⟩
  case made =>
    intro ref answered
    rcases Call.make_answered wellFormed answered with
      ⟨kept, known, function⟩ | ⟨table, grown, minted, function, new⟩
    · have same : later.table = session.table := congrArg Manager.table kept
      refine ⟨same ▸ known, same ▸ function, congrArg Manager.memo kept,
        congrArg Manager.budget kept, ?_, fun _ => kept⟩
      refine iff_of_false (fun minted => ?_) fun new => new ref known function
      have more := minted.size_eq
      rw [same] at more
      omega
    · have same : later.table = table := congrArg Manager.table grown
      have memo : later.memo = session.memo := (congrArg Manager.memo grown :)
      have budget : later.budget = session.budget := (congrArg Manager.budget grown :)
      subst same
      refine ⟨.inr ⟨_, minted.content⟩, function, memo, budget, iff_of_true minted new, ?_⟩
      rintro ⟨known, inUse, equal⟩
      exact absurd equal (new known inUse)
  case refused =>
    intro refused
    rcases Call.make_cases wellFormed.searchable var low high with
      ⟨ref, answered, _⟩ | ⟨slot, answered, _⟩ | ⟨failure, failed, kept, first⟩
    · exact absurd answered (refused ref)
    · exact absurd answered (refused _)
    · exact ⟨kept, failure, failed, first⟩

/-- A full store refuses a new node, but not the one it has.  An empty store takes it. -/
theorem make_of_misled :
    Session.misled.toManager.Reachable Call.isSafe ∧
      Session.misled.table.Refuses 7 ⟨0⟩ ⟨1⟩ (.error (.capacityExhausted 4)) ∧
      ((Call.make 0 ⟨3⟩ ⟨4⟩).after Session.misled).table.function ⟨5⟩ =
        Session.misled.table.choice 0 ⟨3⟩ ⟨4⟩ ∧
      ∃ ref, Session.fresh.table.Mints ((Call.make 7 ⟨0⟩ ⟨1⟩).after Session.fresh).table
        ⟨7, ⟨0⟩, ⟨1⟩⟩ ref := by
  have freshReachable : Session.fresh.toManager.Reachable Call.isSafe :=
    Session.reachable_fresh Call.isSafe
  refine ⟨Session.reachable_misled, ?full, ?known, ?new⟩
  case full =>
    have refused : (Call.make 7 ⟨0⟩ ⟨1⟩).outcome Session.misled =
        .failed (.error (.capacityExhausted 4)) := by decide +kernel
    obtain ⟨_, failure, failed, first⟩ :=
      (make_of_reachable Session.reachable_misled 7 ⟨0⟩ ⟨1⟩).2.2 fun ref answered => by
        cases refused.symm.trans answered
    cases refused.symm.trans failed
    exact first
  case known =>
    have answered : (Call.make 0 ⟨3⟩ ⟨4⟩).outcome Session.misled = .answered (.ref ⟨5⟩) := by
      decide +kernel
    exact ((make_of_reachable Session.reachable_misled 0 ⟨3⟩ ⟨4⟩).2.1 ⟨5⟩ answered).2.1
  case new =>
    obtain ⟨allowed, made, _⟩ := make_of_reachable freshReachable 7 ⟨0⟩ ⟨1⟩
    obtain ⟨ref, answered⟩ :=
      allowed.2 ⟨by decide, by decide, by decide, .inr ⟨by decide, .inr (by decide)⟩⟩
    obtain ⟨_, _, _, _, minted, unchanged⟩ := made ref answered
    refine ⟨ref, minted.2 fun known inUse equal => ?_⟩
    have same := congrArg Manager.table (unchanged ⟨known, inUse, equal⟩)
    have size : ((Call.make 7 ⟨0⟩ ⟨1⟩).after Session.fresh).table.size = 1 := by decide +kernel
    rw [same] at size
    exact absurd size (by decide +kernel)

end DecisionDiagram
