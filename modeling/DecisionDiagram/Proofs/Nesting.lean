import DecisionDiagram.Proofs.Outline
import DecisionDiagram.Proofs.Unknown

/-!
# How deep recursions nest

Every level of a recursion takes a variable of its own from those that the operands' diagrams
test, so the number of these variables bounds the levels: a level more ends the recursion at
the constants, and another one is for the negation by which a connective may end.  With enough
levels no more are ever used.  What is remembered does not matter, since a result that is
recalled only saves levels, and what is stored on the way leaves the operands' diagrams as they
are.
-/

namespace DecisionDiagram

/-! ## Variables that are left -/

/-- How many variables of a set have a bound or more. -/
def remaining (vars : Finset Var) (bound : Nat) : Nat :=
  (vars.filter fun var => bound ≤ var.toNat).card

/-- The variable has a bound or more and belongs to a set, unless it is none. -/
def Remains (vars : Finset Var) (bound : Nat) (var : Var) : Prop :=
  var < terminalVar → var ∈ vars ∧ bound ≤ var.toNat

/-- A variable that is left behind remains no longer. -/
theorem Remains.remaining_lt {vars : Finset Var} {bound : Nat} {var : Var}
    (remains : Remains vars bound var) (usable : var < terminalVar) :
    remaining vars (var.toNat + 1) < remaining vars bound := by
  apply Finset.card_lt_card
  rw [Finset.ssubset_iff_of_subset]
  · refine ⟨var, Finset.mem_filter.2 (remains usable), fun left => ?_⟩
    exact absurd (Finset.mem_filter.1 left).2 (Nat.not_succ_le_self _)
  · intro other left
    rw [Finset.mem_filter] at left ⊢
    exact ⟨left.1, Nat.le_trans (remains usable).2 (Nat.le_of_succ_le left.2)⟩

namespace UniqueTable

variable {table : UniqueTable} {parts : Set Ref} {vars : Finset Var} {bound : Nat} {ref : Ref}
variable {var : Var} {diagram : Diagram}

/-- The variables that some ids test. -/
def testedBy (table : UniqueTable) (refs : List Ref) : Finset Var :=
  (refs.filterMap fun ref => (table.node? ref).map (·.var)).toFinset

/-- The set is closed under branches, and all that its ids test are given variables. -/
structure Spans (table : UniqueTable) (parts : Set Ref) (vars : Finset Var) : Prop where
  closed : table.Closed parts
  tested : ∀ ref ∈ parts, ∀ node, table.node? ref = some node → node.var ∈ vars

/-- A usable variable that a part tests first is one of those that remain. -/
theorem Spans.remains (spans : table.Spans parts vars) (part : table.Part parts bound ref)
    (tested : table.var? ref = some var) : Remains vars bound var := by
  intro usable
  refine ⟨?_, part.starts.le_of_var? tested⟩
  rcases part.starts.knows.cases with ⟨value, rfl⟩ | ⟨node, content⟩
  · rw [table.var?_ofBool] at tested
    cases tested
    exact absurd usable (UInt32.lt_irrefl _)
  · rw [var?_of_node? content] at tested
    cases tested
    exact spans.tested ref part.member node content

/-- No path is longer than variables remain for it. -/
theorem Spans.height_le (spans : table.Spans parts vars) (wellFormed : table.WellFormed)
    (part : table.Part parts bound ref) (represents : table.Represents ref diagram) :
    diagram.height ≤ remaining vars bound := by
  induction diagram generalizing ref bound with
  | constant value => exact Nat.zero_le _
  | decision var low high lowIH highIH =>
      obtain ⟨node, content, rfl, lowRepresents, highRepresents⟩ :=
        represents_decision.1 represents
      obtain ⟨lowPart, highPart⟩ := part.branches wellFormed spans.closed content
      have fewer := (spans.remains part (var?_of_node? content)).remaining_lt
        (wellFormed.proper_of_node? content).low_follows.lt_terminalVar
      have lowLe := lowIH lowPart lowRepresents
      have highLe := highIH highPart highRepresents
      rw [Diagram.height]
      omega

end UniqueTable

/-! ## More levels than are used -/

section Matches

variable {σ α β : Type} {valid : σ → Prop} {first second action : EStateM Failure σ α}
variable {firstNext secondNext : α → EStateM Failure σ β}

/-- From valid states both computations do the same, which leads to valid states, and never run
out of levels. -/
def Matches (valid : σ → Prop) (first second : EStateM Failure σ α) : Prop :=
  ∀ state, valid state → second.run state = first.run state ∧
    valid (finalState (first.run state)) ∧ ∀ later, first.run state ≠ .error .tooDeep later

theorem Matches.refl (kept : ∀ state, valid state → valid (finalState (action.run state)))
    (ends : ∀ state later, action.run state ≠ .error .tooDeep later) :
    Matches valid action action :=
  fun state holds => ⟨rfl, kept state holds, ends state⟩

theorem Matches.pure (answer : α) :
    Matches valid (Pure.pure answer) (Pure.pure answer : EStateM Failure σ α) :=
  .refl (fun _ holds => holds) fun _ _ ended => by cases ended

theorem Matches.bind (begun : Matches valid first second)
    (next : ∀ answer, Matches valid (firstNext answer) (secondNext answer)) :
    Matches valid (first >>= firstNext) (second >>= secondNext) := by
  intro state holds
  obtain ⟨same, kept, ends⟩ := begun state holds
  cases run : first.run state with
  | ok answer middle =>
      rw [run] at same kept
      rw [run_bind_of_ok run, run_bind_of_ok same]
      exact next answer middle kept
  | error failure middle =>
      rw [run] at same kept ends
      rw [run_bind_of_error run, run_bind_of_error same]
      refine ⟨rfl, kept, fun later ended => ends later ?_⟩
      cases ended
      rfl

/-- A question whose answer is the same in all valid states. -/
theorem Matches.after {answer : α}
    (answered : ∀ state, valid state → action.run state = .ok answer state)
    (next : Matches valid (firstNext answer) (secondNext answer)) :
    Matches valid (action >>= firstNext) (action >>= secondNext) := by
  intro state holds
  rw [run_bind_of_ok (answered state holds), run_bind_of_ok (answered state holds)]
  exact next state holds

/-- A recursion never needs more levels than so many: it does not run out of them, and more of
them change nothing. -/
def Suffices (levels : Nat) (recursion : Nat → EStateM Failure σ α) (state : σ) : Prop :=
  ∀ depth, levels ≤ depth → (recursion depth).run state = (recursion levels).run state ∧
    ∀ later, (recursion depth).run state ≠ .error .tooDeep later

theorem Suffices.of_matches {levels : Nat} {recursion : Nat → EStateM Failure σ α} {state : σ}
    (holds : valid state)
    (alike : ∀ depth, levels ≤ depth → Matches valid (recursion levels) (recursion depth)) :
    Suffices levels recursion state := by
  intro depth enough
  obtain ⟨same, _, ends⟩ := alike depth enough state holds
  exact ⟨same, fun later ended => ends later (same ▸ ended)⟩

end Matches

/-! ## Operators -/

section Operators

open SessionM

variable {α β : Type} {base : UniqueTable} {parts : Set Ref} {vars : Finset Var}
variable {bound depth more : Nat} {op : BinaryOp} {operand left right condition yes no : Ref}

theorem Matches.of_grows {action : SessionM α} (grows : Grows action)
    (ends : ∀ session later, action.run session ≠ .error .tooDeep later) :
    Matches (GrownFrom base) action action :=
  .refl (fun _ grown => grown.after grows) ends

theorem Matches.record (event : Event) :
    Matches (GrownFrom base) (SessionM.record event) (SessionM.record event) :=
  of_grows (.record event) fun _ _ ended => by cases ended

theorem Matches.remember (key : Key) (result : Ref) :
    Matches (GrownFrom base) (SessionM.remember key result) (SessionM.remember key result) :=
  of_grows (.remember key result) fun _ _ ended => by cases ended

theorem Matches.lookUp (key : Key) :
    Matches (GrownFrom base) (SessionM.lookUp key) (SessionM.lookUp key) := by
  apply of_grows (.lookUp key)
  intro session later ended
  obtain ⟨journal, run⟩ := run_lookUp key session
  rw [run] at ended
  cases ended

/-- A node is refused for other reasons. -/
theorem Matches.make (var : Var) (low high : Ref) :
    Matches (GrownFrom base) (DecisionDiagram.make var low high)
      (DecisionDiagram.make var low high) := by
  apply of_grows (.make var low high)
  intro session later ended
  obtain ⟨journal, run⟩ := run_make var low high session
  rw [run, run_onTable_make] at ended
  split at ended
  · cases ended
  · by_cases same : low = high
    · simp only [UniqueTable.merge, same, ↓reduceIte] at ended
      cases ended
    · simp only [UniqueTable.merge, same, ↓reduceIte, run_onTable, UniqueTable.run_store] at ended
      cases inserted : session.table.insert ⟨var, low, high⟩ <;> simp [inserted] at ended

theorem Matches.query {question : Manager → Except Failure α} {answer : α}
    {firstNext secondNext : α → SessionM β}
    (answered : ∀ manager : Manager, manager.table.Extends base → question manager = .ok answer)
    (next : Matches (GrownFrom base) (firstNext answer) (secondNext answer)) :
    Matches (GrownFrom base) (SessionM.query question >>= firstNext)
      (SessionM.query question >>= secondNext) :=
  .after (fun _ holds => run_query_of_ok (answered _ holds.grown)) next

theorem Matches.negateWithin (wellFormed : base.WellFormed) (spans : base.Spans parts vars)
    (part : base.Part parts bound operand) (enough : remaining vars bound < depth)
    (further : depth ≤ more) :
    Matches (GrownFrom base) (DecisionDiagram.negateWithin depth operand)
      (DecisionDiagram.negateWithin more operand) := by
  induction depth generalizing operand bound more with
  | zero => exact absurd enough (Nat.not_lt_zero _)
  | succ depth ih =>
      obtain ⟨more, rfl⟩ : ∃ less, more = less + 1 := ⟨more - 1, by omega⟩
      simp only [DecisionDiagram.negateWithin]
      apply Matches.bind (.record _)
      intro _
      cases constant : operand.constant? with
      | some value => exact .pure _
      | none =>
          apply Matches.bind (.lookUp _)
          intro found
          cases found with
          | some result => exact .bind (.record _) fun _ => .pure _
          | none =>
              obtain ⟨node, content⟩ := part.starts.knows.exists_node? constant
              obtain ⟨lowPart, highPart⟩ := part.branches wellFormed spans.closed content
              have fewer := (spans.remains part (UniqueTable.var?_of_node? content)).remaining_lt
                (wellFormed.proper_of_node? content).low_follows.lt_terminalVar
              apply Matches.query fun manager grown =>
                Manager.node_eq_ok_iff.2 (grown.node? content)
              apply Matches.bind (ih lowPart (by omega) (by omega))
              intro low
              apply Matches.bind (ih highPart (by omega) (by omega))
              intro high
              exact .bind (.make _ _ _) fun result => .bind (.remember _ _) fun _ => .pure _

theorem Matches.query_var {ref : Ref} {var : Var} {firstNext secondNext : Var → SessionM β}
    (tested : base.var? ref = some var)
    (next : Matches (GrownFrom base) (firstNext var) (secondNext var)) :
    Matches (GrownFrom base) (SessionM.query (·.var ref) >>= firstNext)
      (SessionM.query (·.var ref) >>= secondNext) :=
  .query (fun manager grown => by rw [Manager.var_eq, grown.var? tested]) next

theorem Matches.applyWithin (wellFormed : base.WellFormed) (spans : base.Spans parts vars)
    (leftPart : base.Part parts bound left) (rightPart : base.Part parts bound right)
    (enough : remaining vars bound + 1 < depth) (further : depth ≤ more) :
    Matches (GrownFrom base) (DecisionDiagram.applyWithin depth op left right)
      (DecisionDiagram.applyWithin more op left right) := by
  induction depth generalizing left right bound more with
  | zero => exact absurd enough (Nat.not_lt_zero _)
  | succ depth ih =>
      obtain ⟨more, rfl⟩ : ∃ less, more = less + 1 := ⟨more - 1, by omega⟩
      simp only [DecisionDiagram.applyWithin]
      cases found : op.shortcut? left right with
      | some shortcut =>
          cases shortcut with
          | is result => exact .pure _
          | negationOf operand =>
              have part : base.Part parts bound operand := by
                rcases BinaryOp.constant_of_negationOf found with ⟨same, _⟩ | ⟨same, _⟩
                · rwa [same]
                · rwa [same]
              exact .negateWithin wellFormed spans part (by omega) (by omega)
      | none =>
          obtain ⟨first, second, arranged, firstPart, secondPart, constant⟩ :=
            leftPart.exists_arranged rightPart op (BinaryOp.constant?_of_shortcut?_eq_none found)
          simp only [arranged]
          apply Matches.bind (.lookUp _)
          intro found
          cases found with
          | some result => exact .bind (.record _) fun _ => .pure _
          | none =>
              obtain ⟨firstVar, secondVar, firstTested, secondTested, usable,
                  ⟨first0, first1, firstDivided⟩, second0, second1, secondDivided⟩ :=
                Manager.exists_divided_both wellFormed spans.closed spans.closed firstPart
                  secondPart constant
              have remains : Remains vars bound (min firstVar secondVar) :=
                min_of_both (spans.remains firstPart firstTested)
                  (spans.remains secondPart secondTested)
              have fewer := remains.remaining_lt usable
              apply Matches.query_var firstTested
              apply Matches.query_var secondTested
              apply Matches.query firstDivided.cofactors
              apply Matches.query secondDivided.cofactors
              apply Matches.bind
                (ih firstDivided.lowPart secondDivided.lowPart (by omega) (by omega))
              intro low
              apply Matches.bind
                (ih firstDivided.highPart secondDivided.highPart (by omega) (by omega))
              intro high
              apply Matches.bind (.make _ _ _)
              intro result
              exact .bind (.record _) fun _ => .bind (.remember _ _) fun _ => .pure _

theorem Matches.chooseWithin (wellFormed : base.WellFormed) (spans : base.Spans parts vars)
    (conditionPart : base.Part parts bound condition) (yesPart : base.Part parts bound yes)
    (noPart : base.Part parts bound no) (enough : remaining vars bound + 1 < depth)
    (further : depth ≤ more) :
    Matches (GrownFrom base) (DecisionDiagram.chooseWithin depth condition yes no)
      (DecisionDiagram.chooseWithin more condition yes no) := by
  induction depth generalizing condition yes no bound more with
  | zero => exact absurd enough (Nat.not_lt_zero _)
  | succ depth ih =>
      obtain ⟨more, rfl⟩ : ∃ less, more = less + 1 := ⟨more - 1, by omega⟩
      simp only [DecisionDiagram.chooseWithin]
      apply Matches.bind (.record _)
      intro _
      cases found : chooseShortcut? condition yes no with
      | some shortcut =>
          cases shortcut with
          | is result => exact .pure _
          | negationOf operand =>
              rw [(constants_of_negationOf found).1]
              exact .negateWithin wellFormed spans conditionPart (by omega) (by omega)
      | none =>
          have constant := constant?_of_chooseShortcut?_eq_none found
          apply Matches.bind (.lookUp _)
          intro found
          cases found with
          | some result => exact .bind (.record _) fun _ => .pure _
          | none =>
              obtain ⟨conditionVar, conditionTested, _⟩ := conditionPart.starts
              obtain ⟨yesVar, yesTested, _⟩ := yesPart.starts
              obtain ⟨noVar, noTested, _⟩ := noPart.starts
              have conditionAbove : min (min conditionVar yesVar) noVar ≤ conditionVar :=
                UInt32.le_trans Std.min_le_left Std.min_le_left
              have yesAbove : min (min conditionVar yesVar) noVar ≤ yesVar :=
                UInt32.le_trans Std.min_le_left Std.min_le_right
              have usable :=
                wellFormed.lt_terminalVar_of_le conditionTested constant conditionAbove
              have remains : Remains vars bound (min (min conditionVar yesVar) noVar) :=
                min_of_both (min_of_both (spans.remains conditionPart conditionTested)
                  (spans.remains yesPart yesTested)) (spans.remains noPart noTested)
              have fewer := remains.remaining_lt usable
              obtain ⟨condition0, condition1, conditionDivided⟩ := Manager.exists_divided
                wellFormed spans.closed conditionPart conditionTested conditionAbove usable
              obtain ⟨yes0, yes1, yesDivided⟩ := Manager.exists_divided wellFormed
                spans.closed yesPart yesTested yesAbove usable
              obtain ⟨no0, no1, noDivided⟩ := Manager.exists_divided wellFormed
                spans.closed noPart noTested Std.min_le_right usable
              apply Matches.query_var conditionTested
              apply Matches.query_var yesTested
              apply Matches.query_var noTested
              apply Matches.query conditionDivided.cofactors
              apply Matches.query yesDivided.cofactors
              apply Matches.query noDivided.cofactors
              apply Matches.bind (ih conditionDivided.lowPart yesDivided.lowPart
                noDivided.lowPart (by omega) (by omega))
              intro low
              apply Matches.bind (ih conditionDivided.highPart yesDivided.highPart
                noDivided.highPart (by omega) (by omega))
              intro high
              exact .bind (.make _ _ _) fun result => .bind (.remember _ _) fun _ => .pure _

end Operators

/-! ## Counts -/

theorem Matches.ofExcept {σ α : Type} {valid : σ → Prop} {answer : Except Failure α}
    (ends : answer ≠ .error .tooDeep) :
    Matches valid (MonadExcept.ofExcept answer) (MonadExcept.ofExcept answer) := by
  cases answer with
  | ok value => exact .pure value
  | error failure =>
      refine .refl (fun _ holds => holds) fun state later ended => ends ?_
      cases ended
      rfl

theorem levelIn_ne_tooDeep (domain : List Var) (var : Var) :
    levelIn domain var ≠ .error .tooDeep := by
  unfold levelIn
  split
  · simp
  · split <;> simp [Failure.violation]

namespace Manager

variable {manager : Manager} {parts : Set Ref} {vars : Finset Var} {bound depth more : Nat}
variable {ref : Ref} {domain : List Var}

theorem skipped_ne_tooDeep (domain : List Var) (here : Nat) (branch : Ref) :
    manager.skipped domain here branch ≠ .error .tooDeep := by
  have level := levelIn_ne_tooDeep domain
  simp only [skipped, var_eq]
  cases manager.table.var? branch with
  | none => simp [bind, Except.bind, Failure.violation]
  | some var =>
      simp only [bind, Except.bind]
      cases found : levelIn domain var with
      | error failure => exact fun same => level var (found.trans same)
      | ok below =>
          by_cases ordered : here < below
          · simp [ordered, pure, Except.pure]
          · simp [ordered, throw, throwThe, MonadExceptOf.throw]

theorem matches_countWithin (wellFormed : manager.table.WellFormed)
    (spans : manager.table.Spans parts vars) (part : manager.table.Part parts bound ref)
    (enough : remaining vars bound < depth) (further : depth ≤ more) :
    Matches (fun _ => True) (manager.countWithin domain depth ref)
      (manager.countWithin domain more ref) := by
  induction depth generalizing ref bound more with
  | zero => exact absurd enough (Nat.not_lt_zero _)
  | succ depth ih =>
      obtain ⟨more, rfl⟩ : ∃ less, more = less + 1 := ⟨more - 1, by omega⟩
      simp only [countWithin]
      cases constant : ref.constant? with
      | some value => exact .pure _
      | none =>
          obtain ⟨node, content⟩ := part.starts.knows.exists_node? constant
          obtain ⟨lowPart, highPart⟩ := part.branches wellFormed spans.closed content
          have fewer := (spans.remains part (UniqueTable.var?_of_node? content)).remaining_lt
            (wellFormed.proper_of_node? content).low_follows.lt_terminalVar
          have get : Matches (fun _ => True) (MonadState.get : CountM Counts) MonadState.get :=
            .refl (fun _ _ => trivial) fun _ _ ended => by cases ended
          apply get.bind
          intro counts
          cases counts[ref.id]? with
          | some count => exact .pure _
          | none =>
              have asked : ∀ counts : Counts, True →
                  (MonadExcept.ofExcept (manager.node ref) : CountM Node).run counts =
                    .ok node counts := by
                intro counts _
                rw [node_eq_ok_iff.2 content]
                rfl
              apply Matches.after asked
              apply Matches.bind (.ofExcept (levelIn_ne_tooDeep _ _))
              intro here
              apply Matches.bind (.ofExcept (skipped_ne_tooDeep _ _ _))
              intro lowSkipped
              apply Matches.bind (ih lowPart (by omega) (by omega))
              intro low
              apply Matches.bind (.ofExcept (skipped_ne_tooDeep _ _ _))
              intro highSkipped
              apply Matches.bind (ih highPart (by omega) (by omega))
              intro high
              exact .refl (fun _ _ => trivial) fun _ _ ended => by cases ended

end Manager

/-! ## Levels and tested variables -/

theorem card_le_size (vars : Finset Var) : vars.card ≤ UInt32.size := by
  rw [← Finset.card_range UInt32.size]
  apply Finset.card_le_card_of_injOn UInt32.toNat
  · intro var _
    exact Finset.mem_coe.2 (Finset.mem_range.2 var.toNat_lt)
  · exact Set.injOn_of_injective fun _ _ => UInt32.toNat_inj.1

/-- Two levels more than so many tests are enough for every recursion on some ids, whatever is
remembered, and so many steps are enough for a walk to a model. -/
structure Session.NestsWithin (session : Session) (roots : List Ref) (tests : Nat) : Prop where
  negate : ∀ operand ∈ roots,
    Suffices (tests + 2) (fun depth => negateWithin depth operand) session
  apply : ∀ op, ∀ left ∈ roots, ∀ right ∈ roots,
    Suffices (tests + 2) (fun depth => applyWithin depth op left right) session
  choose : ∀ condition ∈ roots, ∀ yes ∈ roots, ∀ no ∈ roots,
    Suffices (tests + 2) (fun depth => chooseWithin depth condition yes no) session
  count : ∀ domain counts, ∀ ref ∈ roots,
    Suffices (tests + 2) (fun depth => session.countWithin domain depth ref) counts
  bracket : ∀ ref ∈ roots, ∃ text, ∀ depth, tests + 2 ≤ depth →
    session.bracketWithin depth ref = .ok text
  path : ∀ ref ∈ roots, ref ≠ .falseRef → ∃ path, ∀ steps, tests ≤ steps →
    session.pathWithin steps ref = .ok path

theorem Session.NestsWithin.of_spans {session : Session} {roots : List Ref} {parts : Set Ref}
    {vars : Finset Var} (wellFormed : session.table.WellFormed)
    (spans : session.table.Spans parts vars)
    (member : ∀ root ∈ roots, session.table.Part parts 0 root) :
    session.NestsWithin roots vars.card := by
  have fewer : remaining vars 0 ≤ vars.card := Finset.card_filter_le _ _
  have start : GrownFrom session.table session := ⟨wellFormed, .refl _⟩
  have height : ∀ root ∈ roots, ∀ diagram, session.table.Represents root diagram →
      diagram.height ≤ vars.card := fun root inside diagram represents =>
    Nat.le_trans (spans.height_le wellFormed (member root inside) represents) fewer
  refine ⟨?negate, ?apply, ?choose, ?count, ?bracket, ?path⟩
  case negate =>
    intro operand inside
    exact .of_matches start fun depth enough =>
      .negateWithin wellFormed spans (member operand inside) (by omega) enough
  case apply =>
    intro op left leftInside right rightInside
    exact .of_matches start fun depth enough => .applyWithin wellFormed spans
      (member left leftInside) (member right rightInside) (by omega) enough
  case choose =>
    intro condition conditionInside yes yesInside no noInside
    exact .of_matches start fun depth enough => .chooseWithin wellFormed spans
      (member condition conditionInside) (member yes yesInside) (member no noInside) (by omega)
      enough
  case count =>
    intro domain counts ref inside
    exact .of_matches trivial fun depth enough =>
      Manager.matches_countWithin wellFormed spans (member ref inside) (by omega) enough
  case bracket =>
    intro ref inside
    obtain ⟨diagram, represents⟩ :=
      wellFormed.exists_represents (member ref inside).starts.knows
    obtain ⟨outline, rfl, rfl, described⟩ := represents.exists_outline
    have short := height _ inside _ represents
    exact ⟨outline.text, fun depth enough =>
      Manager.bracketWithin_of_describes described (by omega)⟩
  case path =>
    intro ref inside notFalse
    obtain ⟨diagram, represents⟩ :=
      wellFormed.exists_represents (member ref inside).starts.knows
    have satisfiable : diagram ≠ .constant false := fun same =>
      notFalse ((represents.eq_ofBool_iff false).2 same)
    exact ⟨diagram.path, fun steps enough => Manager.pathWithin_of_represents represents
      (wellFormed.canonical represents) satisfiable
      (Nat.le_trans (height ref inside diagram represents) enough)⟩

/-- An id that is its own branch is negated without end. -/
theorem negateWithin_of_loop {node : Node} {operand : Ref} (depth : Nat) {session : Session}
    (content : session.table.node? operand = some node) (loops : node.low = operand)
    (forgotten : session.memo.find? (.negation operand) = none) :
    ∃ later, (negateWithin depth operand).run session = .error .tooDeep later := by
  induction depth generalizing session with
  | zero => exact ⟨session, rfl⟩
  | succ depth ih =>
      have notConstant : operand.constant? = none := UniqueTable.constant?_of_node? content
      simp only [negateWithin, notConstant]
      rw [run_bind_of_ok (SessionM.run_record _ _)]
      obtain ⟨journal, run⟩ := SessionM.run_lookUp (.negation operand)
        { session with journal := session.journal.record (.negate operand) }
      rw [run_bind_of_ok run]
      simp only [forgotten]
      let next : Session :=
        { session with memo := session.memo.count (.negation operand), journal := journal }
      have sameContent : next.table.node? operand = some node := content
      change ∃ later, EStateM.run _ next = _
      rw [run_bind_of_ok (SessionM.run_query_node_of_some sameContent), loops]
      obtain ⟨later, deep⟩ := ih sameContent (by simp [next, forgotten])
      exact ⟨later, run_bind_of_error deep⟩

/-- A session whose only slot holds a node that is its own branch. -/
def Session.looped : Session :=
  ({ fresh with table := .empty 1 (by decide) (by decide), budget := ⟨16, 24⟩ } : Session).run
    [.table (.insert 0 ⟨2⟩ ⟨1⟩)]

/-- On the ids of a reachable store no recursion takes more levels than two in addition to the
variables that are tested below its operands, and no walk to a model takes more steps than
there are such variables.  What is remembered may be wrong.  On a store with a cycle, which raw
contents make possible, a recursion may have no end. -/
theorem nesting_of_reachable :
    (∀ session : Session, session.toManager.Reachable Call.isSafe → ∀ roots : List Ref,
      (∀ root ∈ roots, session.contains root = true) →
        ∃ reached, session.descendants roots = .ok reached ∧
          (session.table.testedBy reached).card + 2 ≤ nestingLimit ∧
          session.NestsWithin roots (session.table.testedBy reached).card) ∧
    ∃ (session : Session) (operand : Ref), session.toManager.Reachable (fun _ => true) ∧
      session.contains operand = true ∧
      ∀ depth, ∃ later, (negateWithin depth operand).run session = .error .tooDeep later := by
  constructor
  · intro session reachable roots known
    have wellFormed := reachable.wellFormed
    obtain ⟨reached, listed, closed, member⟩ :=
      Manager.exists_closed_descendants wellFormed known
    have spans : session.table.Spans { ref | ref ∈ reached } (session.table.testedBy reached) := by
      refine ⟨closed, fun ref inside node content => ?_⟩
      rw [UniqueTable.testedBy, List.mem_toFinset, List.mem_filterMap]
      exact ⟨ref, inside, by rw [content]; rfl⟩
    have limit : UInt32.size + 2 ≤ nestingLimit := Nat.le_refl _
    have few := card_le_size (session.table.testedBy reached)
    exact ⟨reached, listed, by omega, .of_spans wellFormed spans member⟩
  · refine ⟨Session.looped, ⟨2⟩, ?_, by decide +kernel, fun depth => ?_⟩
    · exact Manager.Reachable.run
        (@Manager.Reachable.created (fun _ => true) 24 ⟨16, 24⟩ {} {} _ rfl) _ (by decide)
    · have content : Session.looped.table.node? ⟨2⟩ = some ⟨0, ⟨2⟩, ⟨1⟩⟩ := by decide +kernel
      exact negateWithin_of_loop depth content rfl (by decide +kernel)

/-- The levels that the tests in a wrongly informed manager leave, for its exclusive disjunction
and one of its operands. -/
theorem nesting_of_misled :
    Session.misled.toManager.Reachable Call.isSafe ∧
      (∀ root ∈ [⟨5⟩, ⟨2⟩], Session.misled.contains root = true) ∧
      ∃ reached, Session.misled.descendants [⟨5⟩, ⟨2⟩] = .ok reached ∧
        Session.misled.NestsWithin [⟨5⟩, ⟨2⟩] (Session.misled.table.testedBy reached).card := by
  have known : ∀ root ∈ [⟨5⟩, ⟨2⟩], Session.misled.contains root = true := by decide +kernel
  obtain ⟨bounded, _⟩ := nesting_of_reachable
  obtain ⟨reached, listed, _, nests⟩ := bounded _ Session.reachable_misled _ known
  exact ⟨Session.reachable_misled, known, reached, listed, nests⟩

end DecisionDiagram
