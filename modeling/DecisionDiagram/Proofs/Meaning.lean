import DecisionDiagram.Proofs.Honest
import DecisionDiagram.Proofs.Operands
import DecisionDiagram.Proofs.Shape

/-!
# What calls mean

A call that asks for functions has a meaning apart from any store: with diagrams for its
operands, it is answered with diagrams or with plain facts, or it fails, and on the way it
makes some diagrams.  A sound session does what the call means.  It answers with ids that
unfold into the diagrams meant, and afterwards it holds what it held before and what was
made; only if its store is too small for that, it fails.
-/

namespace DecisionDiagram

namespace Diagram

variable {diagram : Diagram} {function : Assignment → Bool}

open Classical in
/-- The canonical diagram of a function, if it has one. -/
noncomputable def ofFunction (function : Assignment → Bool) : Diagram :=
  if expressible : ∃ diagram : Diagram, diagram.Canonical ∧ diagram.eval = function then
    expressible.choose
  else .constant false

/-- The canonical diagram of an operator on functions. -/
noncomputable def operate (op : Operator) (first second third : Diagram) : Diagram :=
  ofFunction fun assignment =>
    op.eval (first.eval assignment) (second.eval assignment) (third.eval assignment)

noncomputable def negation (operand : Diagram) : Diagram :=
  operate .not operand (.constant false) (.constant false)

noncomputable def binary (op : BinaryOp) (left right : Diagram) : Diagram :=
  operate (.binary op) left right (.constant false)

/-- What a connective makes of a list, starting with some function: each of the results,
up to the last one. -/
noncomputable def chain (op : BinaryOp) : Diagram → List Diagram → List Diagram
  | _, [] => []
  | start, operand :: rest =>
      binary op start operand :: chain op (binary op start operand) rest

/-- The diagram of a test, under the conditions of `make`. -/
def build (var : Var) (low high : Diagram) : Except Failure Diagram :=
  if var = terminalVar then .error (.violation .reservedVariable)
  else if low = high then .ok low
  else if low.top ≤ var then .error (.violation (.ordering var low.top))
  else if high.top ≤ var then .error (.violation (.ordering var high.top))
  else .ok (.decision var low high)

def isConstant : Diagram → Bool
  | .constant _ => true
  | .decision .. => false

def closure (diagrams : List Diagram) : Set Diagram :=
  { part | ∃ diagram ∈ diagrams, part ∈ diagram.subdiagrams }

theorem Canonical.eq_ofFunction (canonical : diagram.Canonical) (same : diagram.eval = function) :
    diagram = ofFunction function := by
  have expressible : ∃ diagram : Diagram, diagram.Canonical ∧ diagram.eval = function :=
    ⟨diagram, canonical, same⟩
  rw [ofFunction, dif_pos expressible]
  obtain ⟨chosenCanonical, chosenSame⟩ := expressible.choose_spec
  exact canonical.eq_of_eval_eq chosenCanonical (same.trans chosenSame.symm)

theorem canonical_of_build {var : Var} {low high : Diagram} (lowCanonical : low.Canonical)
    (highCanonical : high.Canonical) (built : build var low high = .ok diagram) :
    diagram.Canonical := by
  unfold build at built
  split at built
  case isTrue => cases built
  case isFalse =>
    split at built
    case isTrue =>
      cases built
      exact lowCanonical
    case isFalse different =>
      split at built
      case isTrue => cases built
      case isFalse lowAfter =>
        split at built
        case isTrue => cases built
        case isFalse highAfter =>
          cases built
          exact .decision (UInt32.not_le.1 lowAfter) (UInt32.not_le.1 highAfter) different
            lowCanonical highCanonical

@[simp] theorem closure_nil : closure [] = ∅ := by
  simp [closure]

@[simp] theorem closure_singleton (diagram : Diagram) :
    closure [diagram] = diagram.subdiagrams := by
  ext part
  simp [closure]

theorem closure_append (first second : List Diagram) :
    closure (first ++ second) = closure first ∪ closure second := by
  ext part
  simp only [closure, List.mem_append, Set.mem_ofPred_eq, Set.mem_union, or_and_right, exists_or]

theorem finite_closure (diagrams : List Diagram) : (closure diagrams).Finite := by
  induction diagrams with
  | nil => simp
  | cons diagram rest ih =>
      rw [← List.singleton_append, closure_append, closure_singleton]
      exact (Finset.finite_toSet _).union ih

end Diagram

open Diagram (closure)

/-! ## Meanings -/

/-- An answer in which diagrams stand for ids. -/
inductive Reply where
  | id (diagram : Diagram)
  | pair (low high : Diagram)
  | told (answer : Answer)

namespace Call

/-- The call asks for functions, or for what is decided by the functions of its operands. -/
def isFunctional {ρ : Type} : Call ρ → Bool
  | .constant _ | .isConstant .. | .isTerminal _ | .make .. | .makeVar _ | .makeNegatedVar _
  | .negate _ | .apply .. | .choose .. | .conjoin _ | .disjoin _ | .cofactors .. | .size _
  | .model _ | .countModels .. | .varOf _ | .lowOf _ | .highOf _ => true
  | _ => false

theorem isHonest_of_isFunctional {ρ : Type} {call : Call ρ}
    (functional : call.isFunctional = true) :
    call.isHonest = true := by
  cases call with
  | table call => simp [isFunctional] at functional
  | memo call => simp [isFunctional] at functional
  | _ => rfl

theorem isFunctional_of_resolve {ρ σ : Type} {lookup : ρ → Option σ} {call : Call ρ}
    {resolved : Call σ} (found : call.resolve lookup = some resolved)
    (functional : call.isFunctional = true) : resolved.isFunctional = true := by
  cases call <;> simp [resolve, Option.bind_eq_some_iff] at found <;> grind [isFunctional]

/-- What a functional call on diagrams is answered with. -/
noncomputable def meaning : Call Diagram → Except Failure Reply
  | .constant value => .ok (.id (.constant value))
  | .isConstant value operand => .ok (.told (.truth (operand == .constant value)))
  | .isTerminal operand => .ok (.told (.truth operand.isConstant))
  | .make var low high => (Diagram.build var low high).map .id
  | .makeVar var => (Diagram.build var (.constant false) (.constant true)).map .id
  | .makeNegatedVar var => (Diagram.build var (.constant true) (.constant false)).map .id
  | .negate operand => .ok (.id operand.negation)
  | .apply op left right => .ok (.id (.binary op left right))
  | .choose condition yes no => .ok (.id (.operate .ite condition yes no))
  | .conjoin operands => .ok (.id (operands.foldl (.binary .and) (.constant true)))
  | .disjoin operands => .ok (.id (operands.foldl (.binary .or) (.constant false)))
  | .cofactors operand var =>
      (operand.cofactors var).map fun branches => .pair branches.1 branches.2
  | .size root => .ok (.told (.number root.subdiagrams.card))
  | .model operand => .ok (.told (.path operand.model?))
  | .countModels operand domain =>
      (operand.countModels domain).map fun count => .told (.models count)
  | .varOf operand => .ok (.told (.number operand.top.toNat))
  | .lowOf operand => (operand.branch false).map .id
  | .highOf operand => (operand.branch true).map .id
  | _ => .error .tooDeep

/-- The diagrams that a functional call on diagrams makes, one after the other. -/
noncomputable def made : Call Diagram → List Diagram
  | .make var low high => (Diagram.build var low high).toOption.toList
  | .makeVar var => (Diagram.build var (.constant false) (.constant true)).toOption.toList
  | .makeNegatedVar var => (Diagram.build var (.constant true) (.constant false)).toOption.toList
  | .negate operand => [operand.negation]
  | .apply op left right => [.binary op left right]
  | .choose condition yes no => [.operate .ite condition yes no]
  | .conjoin operands => Diagram.chain .and (.constant true) operands
  | .disjoin operands => Diagram.chain .or (.constant false) operands
  | _ => []

end Call

/-! ## Sessions that do what is meant -/

/-- The answer is the reply, with ids for its diagrams. -/
inductive Reply.Fits (table : UniqueTable) : Reply → Answer → Prop where
  | id {ref : Ref} {diagram : Diagram} :
      table.Represents ref diagram → Reply.Fits table (.id diagram) (.ref ref)
  | pair {low high : Ref} {lowDiagram highDiagram : Diagram} :
      table.Represents low lowDiagram → table.Represents high highDiagram →
      Reply.Fits table (.pair lowDiagram highDiagram) (.pair low high)
  | told {answer : Answer} : answer.issued = [] → Reply.Fits table (.told answer) answer

/-- The outcome is as meant; a step without a meaning is left out. -/
inductive Outcome.Fits (table : UniqueTable) : Option (Except Failure Reply) → Outcome → Prop where
  | answered {reply : Reply} {answer : Answer} :
      reply.Fits table answer → Outcome.Fits table (some (.ok reply)) (.answered answer)
  | failed (failure : Failure) : Outcome.Fits table (some (.error failure)) (.failed failure)
  | unresolved : Outcome.Fits table none .unresolved

/-- What becomes of a call that finds the store full. -/
def Outcome.full (capacity : Nat) : Outcome :=
  .failed (.error (.capacityExhausted capacity))

namespace UniqueTable

variable {table later : UniqueTable} {key : Key} {ref : Ref}

@[simp] theorem unfolding_ofBool (table : UniqueTable) (value : Bool) :
    table.unfolding (.ofBool value) = .constant value :=
  (represents_constant.2 rfl : table.Represents (.ofBool value) (.constant value)).unfolding_eq

theorem Represents.beq_ofBool {diagram : Diagram} (represents : table.Represents ref diagram)
    (value : Bool) :
    (ref == .ofBool value) = (diagram == .constant value) := by
  rw [Bool.eq_iff_iff, beq_iff_eq, beq_iff_eq]
  exact represents.eq_ofBool_iff value

theorem Represents.isTerminal_eq {diagram : Diagram} (represents : table.Represents ref diagram) :
    ref.isTerminal = diagram.isConstant := by
  cases diagram with
  | constant value =>
      rw [represents_constant.1 represents]
      cases value <;> rfl
  | decision var low high =>
      obtain ⟨node, content, _⟩ := represents_decision.1 represents
      exact not_isTerminal_of_node? content

theorem WellFormed.function_eq_unfolding (wellFormed : table.WellFormed)
    (known : table.Knows ref) : table.function ref = (table.unfolding ref).eval :=
  wellFormed.function_eq (wellFormed.represents_unfolding known)

theorem WellFormed.unfolding_extend (wellFormed : table.WellFormed) (grown : later.Extends table)
    (known : table.Knows ref) : later.unfolding ref = table.unfolding ref :=
  ((wellFormed.represents_unfolding known).extend grown).unfolding_eq

/-- The right result for a key is the operator's diagram. -/
theorem WellFormed.denotes_operate (wellFormed : table.WellFormed) (admits : table.Admits key) :
    table.Denotes key (Diagram.operate key.op (table.unfolding key.first)
      (table.unfolding key.second) (table.unfolding key.third)) := by
  obtain ⟨diagram, denotes⟩ := wellFormed.exists_denotes admits
  have same : diagram.eval = fun assignment => key.op.eval
      ((table.unfolding key.first).eval assignment)
      ((table.unfolding key.second).eval assignment)
      ((table.unfolding key.third).eval assignment) := by
    rw [denotes.eval_eq]
    unfold asked
    rw [wellFormed.function_eq_unfolding admits.first,
      wellFormed.function_eq_unfolding admits.second, wellFormed.function_eq_unfolding admits.third]
  rwa [Diagram.operate, ← denotes.canonical.eq_ofFunction same]

theorem WellFormed.denotes_negation (wellFormed : table.WellFormed) (known : table.Knows ref) :
    table.Denotes (.negation ref) (table.unfolding ref).negation := by
  have padding := table.unfolding_ofBool false
  have denotes := @denotes_operate table (.negation ref) wellFormed
    ⟨known, table.knows_ofBool false, table.knows_ofBool false⟩
  simp only [Key.negation, show Ref.falseRef = .ofBool false from rfl, padding] at denotes
  exact denotes

theorem WellFormed.denotes_binary {left right : Ref} (wellFormed : table.WellFormed)
    (op : BinaryOp) (leftKnown : table.Knows left) (rightKnown : table.Knows right) :
    table.Denotes (.binary op left right)
      (.binary op (table.unfolding left) (table.unfolding right)) := by
  have denotes := @denotes_operate table (.binary op left right) wellFormed
    ⟨leftKnown, rightKnown, table.knows_ofBool false⟩
  simp only [Key.binary, show Ref.falseRef = .ofBool false from rfl,
    table.unfolding_ofBool false] at denotes
  exact denotes

/-- Making a node of known branches stores the diagram of the test, or fails as that does. -/
theorem WellFormed.run_make_of_represents {var : Var} {low high : Ref}
    {lowDiagram highDiagram : Diagram} (wellFormed : table.WellFormed)
    (lowRepresents : table.Represents low lowDiagram)
    (highRepresents : table.Represents high highDiagram) :
    (UniqueTable.make var low high).run table = match Diagram.build var lowDiagram highDiagram with
      | .ok diagram => (intern diagram).run table
      | .error failure => .error failure table := by
  have sameIff : low = high ↔ lowDiagram = highDiagram := by
    constructor
    · intro same
      rw [same] at lowRepresents
      exact lowRepresents.diagram_unique highRepresents
    · intro same
      rw [same] at lowRepresents
      exact wellFormed.searchable.ref_eq_of_represents lowRepresents highRepresents
  have lowRun := wellFormed.run_intern_of_represents lowRepresents
  have highRun := wellFormed.run_intern_of_represents highRepresents
  simp only [run_make, objection?, lowRepresents.var?, highRepresents.var?, Diagram.build, sameIff]
  split_ifs with reserved same lowBefore highBefore
  · rfl
  · change (merge var low high).run table = (intern lowDiagram).run table
    rw [merge, if_pos (sameIff.2 same), lowRun]
    rfl
  · rfl
  · rfl
  · change (merge var low high).run table =
      (intern (.decision var lowDiagram highDiagram)).run table
    rw [run_intern_decision, run_bind_of_ok lowRun, run_bind_of_ok highRun]

end UniqueTable

namespace SessionM

open UniqueTable (intern represents_constant)

variable {session later : Session} {diagram result : Diagram} {made : List Diagram}
variable {action : SessionM Ref} {var : Var} {low high : Ref}

/-- The action issues an id of the result and holds what was made on the way, or the store
is too small for that. -/
def Yields (action : SessionM Ref) (session : Session) (made : List Diagram)
    (result : Diagram) : Prop :=
  (∃ ref later, action.run session = .ok ref later ∧ later.Sound ∧
    later.table.Extends session.table ∧ later.table.Represents ref result ∧
    later.table.held = session.table.held ∪ closure made) ∨
  (∃ later, action.run session =
      .error (.error (.capacityExhausted session.table.capacity)) later ∧
    session.table.Lacks (closure made))

theorem Yields.of_simulates (sound : session.Sound) (canonical : diagram.Canonical)
    (simulates : Simulates action (intern diagram) session) :
    Yields action session [diagram] diagram := by
  obtain ⟨view, laterSound⟩ := simulates
  rw [Yields, Diagram.closure_singleton]
  rcases sound.wellFormed.held_of_run_intern canonical with
    ⟨ref, table, run, interned, held⟩ | ⟨table, run, lacks, _⟩
  · rw [run] at view
    cases ended : action.run session with
    | ok answer later =>
        rw [ended] at view laterSound
        cases view
        exact .inl ⟨ref, later, rfl, laterSound, interned.grown, interned.represents, held⟩
    | error failure later =>
        rw [ended] at view
        cases view
  · rw [run] at view
    cases ended : action.run session with
    | ok answer later =>
        rw [ended] at view
        cases view
    | error failure later =>
        rw [ended] at view
        cases view
        exact .inr ⟨later, rfl, lacks⟩

theorem Yields.of_denotes {key : Key} (sound : session.Sound)
    (denotes : session.table.Denotes key diagram)
    (simulates : Simulates action (intern diagram) session) :
    Yields action session [diagram] diagram :=
  .of_simulates sound denotes.canonical simulates

theorem Yields.negate {operand : Ref} (sound : session.Sound)
    (known : session.table.Knows operand) :
    Yields (DecisionDiagram.negate operand) session
      [(session.table.unfolding operand).negation] (session.table.unfolding operand).negation := by
  have denotes := sound.wellFormed.denotes_negation known
  exact .of_denotes sound denotes (.negate sound denotes)

theorem Yields.apply {left right : Ref} (op : BinaryOp) (sound : session.Sound)
    (leftKnown : session.table.Knows left) (rightKnown : session.table.Knows right) :
    let result := Diagram.binary op (session.table.unfolding left) (session.table.unfolding right)
    Yields (DecisionDiagram.apply op left right) session [result] result := by
  intro result
  have denotes := sound.wellFormed.denotes_binary op leftKnown rightKnown
  exact .of_denotes sound denotes (.apply sound denotes)

theorem Yields.choose {condition yes no : Ref} (sound : session.Sound)
    (conditionKnown : session.table.Knows condition) (yesKnown : session.table.Knows yes)
    (noKnown : session.table.Knows no) :
    let result := Diagram.operate .ite (session.table.unfolding condition)
      (session.table.unfolding yes) (session.table.unfolding no)
    Yields (DecisionDiagram.choose condition yes no) session [result] result := by
  intro result
  have denotes := @UniqueTable.WellFormed.denotes_operate session.table
    (.conditional condition yes no) sound.wellFormed ⟨conditionKnown, yesKnown, noKnown⟩
  exact .of_denotes sound denotes (.choose sound denotes)

/-! ## Lists -/

theorem Yields.pure {ref : Ref} (sound : session.Sound)
    (represents : session.table.Represents ref diagram) :
    Yields (Pure.pure ref) session [] diagram := by
  refine .inl ⟨ref, session, rfl, sound, .refl _, represents, ?_⟩
  rw [Diagram.closure_nil, Set.union_empty]

theorem Yields.bind {next : Ref → SessionM Ref} {more : List Diagram} (sound : session.Sound)
    (first : Yields action session made diagram)
    (second : ∀ ref (later : Session), later.Sound → later.table.Extends session.table →
      later.table.Represents ref diagram → Yields (next ref) later more result) :
    Yields (action >>= next) session (made ++ more) result := by
  have finite := Diagram.finite_closure (made ++ more)
  rw [Yields, Diagram.closure_append] at *
  rcases first with ⟨ref, middle, run, middleSound, grown, represents, held⟩ | ⟨later, run, lacks⟩
  · rw [run_bind_of_ok run]
    rcases second ref middle middleSound grown represents with
      ⟨other, later, again, laterSound, further, ends, laterHeld⟩ | ⟨later, again, lacks⟩
    · refine .inl ⟨other, later, again, laterSound, further.trans grown, ends, ?_⟩
      rw [laterHeld, held, Set.union_assoc]
    · rw [grown.capacity_eq] at again
      exact .inr ⟨later, again, UniqueTable.lacks_union grown held lacks⟩
  · exact .inr ⟨later, run_bind_of_error run,
      sound.wellFormed.lacks_mono lacks Set.subset_union_left finite⟩

/-- Folding a connective over known ids makes the chain of its results. -/
theorem Yields.foldlM (op : BinaryOp) {start : Ref} {operands : List Ref} (sound : session.Sound)
    (represents : session.table.Represents start diagram)
    (known : ∀ operand ∈ operands, session.table.Knows operand) :
    Yields (operands.foldlM (DecisionDiagram.apply op) start) session
      (Diagram.chain op diagram (operands.map session.table.unfolding))
      ((operands.map session.table.unfolding).foldl (.binary op) diagram) := by
  induction operands generalizing start diagram session with
  | nil => exact .pure sound represents
  | cons operand rest ih =>
      have operandKnown := known operand List.mem_cons_self
      have restKnown : ∀ other ∈ rest, session.table.Knows other := fun other member =>
        known other (List.mem_cons_of_mem operand member)
      have applied := Yields.apply op sound represents.knows operandKnown
      rw [represents.unfolding_eq] at applied
      rw [List.foldlM_cons, List.map_cons, List.foldl_cons, Diagram.chain, ← List.singleton_append]
      refine .bind sound applied fun ref later laterSound grown laterRepresents => ?_
      have same : rest.map session.table.unfolding = rest.map later.table.unfolding :=
        List.map_congr_left fun other member =>
          (sound.wellFormed.unfolding_extend grown (restKnown other member)).symm
      rw [same]
      exact ih laterSound laterRepresents fun other member => grown.knows (restKnown other member)

/-- A step that does not touch the store makes nothing. -/
theorem Yields.after {α : Type} {first : SessionM α} {next : α → SessionM Ref} {answer : α}
    (run : first.run session = .ok answer later) (same : later.table = session.table)
    (rest : Yields (next answer) later made result) :
    Yields (first >>= next) session made result := by
  rw [Yields, same] at rest
  rwa [Yields, run_bind_of_ok run]

/-! ## Making nodes -/

theorem Yields.make {lowDiagram highDiagram : Diagram} (sound : session.Sound)
    (lowRepresents : session.table.Represents low lowDiagram)
    (highRepresents : session.table.Represents high highDiagram)
    (built : Diagram.build var lowDiagram highDiagram = .ok result) :
    Yields (DecisionDiagram.make var low high) session [result] result := by
  have wellFormed := sound.wellFormed
  have reference : (UniqueTable.make var low high).run session.table =
      (intern result).run session.table := by
    rw [wellFormed.run_make_of_represents lowRepresents highRepresents, built]
  have canonical := Diagram.canonical_of_build (wellFormed.canonical lowRepresents)
    (wellFormed.canonical highRepresents) built
  exact .of_simulates sound canonical ((Simulates.make var low high sound).congr reference)

theorem exists_run_make_of_build {lowDiagram highDiagram : Diagram} {failure : Failure}
    (sound : session.Sound) (lowRepresents : session.table.Represents low lowDiagram)
    (highRepresents : session.table.Represents high highDiagram)
    (refused : Diagram.build var lowDiagram highDiagram = .error failure) :
    ∃ later, (DecisionDiagram.make var low high).run session = .error failure later ∧
      later.table = session.table := by
  have view := (Simulates.make var low high sound).view
  rw [sound.wellFormed.run_make_of_represents lowRepresents highRepresents, refused] at view
  cases ended : (DecisionDiagram.make var low high).run session with
  | ok answer later =>
      rw [ended] at view
      cases view
  | error cause later =>
      rw [ended] at view
      simp only [storeView, EStateM.Result.error.injEq] at view
      exact ⟨later, by rw [view.1], view.2⟩

/-! ## Calls -/

/-- The action is answered as is meant and holds what was made on the way, or the store is
too small for that. -/
def Means (action : SessionM Answer) (session : Session) (verdict : Except Failure Reply)
    (made : List Diagram) : Prop :=
  ∃ outcome later, Stepper.run action session = (outcome, later) ∧
    (outcome.Fits later.table (some verdict) ∧
        later.table.held = session.table.held ∪ closure made ∨
      outcome = .full session.table.capacity ∧ session.table.Lacks (closure made))

theorem Means.of_yields (yields : Yields action session made diagram) :
    Means (do return .ref (← action)) session (.ok (.id diagram)) made := by
  rcases yields with ⟨ref, later, run, _, _, represents, held⟩ | ⟨later, run, lacks⟩
  · refine ⟨.answered (.ref ref), later, ?_, .inl ⟨.answered (.id represents), held⟩⟩
    rw [Stepper.run, run_bind_of_ok run]
    rfl
  · refine ⟨.full session.table.capacity, later, ?_, .inr ⟨rfl, lacks⟩⟩
    rw [Stepper.run, run_bind_of_error run]
    rfl

theorem Means.pure {reply : Reply} {answer : Answer} (fits : reply.Fits session.table answer) :
    Means (Pure.pure answer) session (.ok reply) [] := by
  refine ⟨.answered answer, session, rfl, .inl ⟨.answered fits, ?_⟩⟩
  rw [Diagram.closure_nil, Set.union_empty]

theorem Means.of_query {α β : Type} {question : Manager → Except Failure α}
    {related : α → β → Prop} {verdict : Except Failure β} {tell : α → Answer} {reply : β → Reply}
    (alike : Manager.Alike related (question session.toManager) verdict)
    (fits : ∀ given meant, related given meant → (reply meant).Fits session.table (tell given)) :
    Means (do return tell (← query question)) session (verdict.map reply) [] := by
  have unchanged : session.table.held = session.table.held ∪ closure [] := by
    rw [Diagram.closure_nil, Set.union_empty]
  cases answered : question session.toManager with
  | ok given =>
      rw [answered] at alike
      cases alike with
      | answered agree =>
          refine ⟨.answered (tell given), session, ?_, .inl ⟨.answered (fits _ _ agree), unchanged⟩⟩
          rw [Stepper.run, run_bind_of_ok (run_query_of_ok answered)]
          rfl
  | error failure =>
      rw [answered] at alike
      cases alike
      refine ⟨.failed failure, session, ?_, .inl ⟨.failed failure, unchanged⟩⟩
      rw [Stepper.run, run_bind_of_error (run_query_of_error answered)]

theorem Means.of_question {α : Type} {verdict : Except Failure α}
    (question : Manager → Except Failure α) (tell : α → Answer)
    (plain : ∀ given, (tell given).issued = []) (same : question session.toManager = verdict) :
    Means (do return tell (← query question)) session
      (verdict.map fun given => .told (tell given)) [] := by
  have alike : Manager.Alike Eq (question session.toManager) verdict := by
    rw [same]
    cases verdict with
    | ok given => exact .answered rfl
    | error failure => exact .refused failure
  refine .of_query alike fun given meant agree => ?_
  rw [agree]
  exact .told (plain meant)

theorem Means.make {lowDiagram highDiagram : Diagram} (sound : session.Sound)
    (lowRepresents : session.table.Represents low lowDiagram)
    (highRepresents : session.table.Represents high highDiagram) (var : Var) :
    Means (do return .ref (← DecisionDiagram.make var low high)) session
      ((Diagram.build var lowDiagram highDiagram).map .id)
      (Diagram.build var lowDiagram highDiagram).toOption.toList := by
  cases built : Diagram.build var lowDiagram highDiagram with
  | ok diagram => exact .of_yields (.make sound lowRepresents highRepresents built)
  | error failure =>
      obtain ⟨later, run, same⟩ := exists_run_make_of_build sound lowRepresents highRepresents built
      refine ⟨.failed failure, later, ?_, .inl ⟨.failed failure, ?_⟩⟩
      · rw [Stepper.run, run_bind_of_error run]
      · rw [same]
        simp [Except.toOption]

/-- A sound session does what a functional call on known ids means. -/
theorem Means.perform {call : Call Ref} (functional : call.isFunctional = true)
    (sound : session.Sound) (known : ∀ operand ∈ call.operands, session.table.Knows operand) :
    Means call.perform session (call.map session.table.unfolding).meaning
      (call.map session.table.unfolding).made := by
  have wellFormed := sound.wellFormed
  have represents : ∀ operand ∈ call.operands,
      session.table.Represents operand (session.table.unfolding operand) :=
    fun operand member => wellFormed.represents_unfolding (known operand member)
  have falseRepresents : session.table.Represents .falseRef (.constant false) :=
    represents_constant.2 rfl
  have trueRepresents : session.table.Represents .trueRef (.constant true) :=
    represents_constant.2 rfl
  cases call with
  | constant value => exact .pure (.id (represents_constant.2 rfl))
  | isConstant value ref =>
      simp only [Call.perform, (represents ref List.mem_cons_self).beq_ofBool]
      exact .pure (.told rfl)
  | isTerminal ref =>
      simp only [Call.perform, (represents ref List.mem_cons_self).isTerminal_eq]
      exact .pure (.told rfl)
  | make var low high =>
      exact .make sound (represents low (by simp [Call.operands]))
        (represents high (by simp [Call.operands])) var
  | makeVar var => exact .make sound falseRepresents trueRepresents var
  | makeNegatedVar var => exact .make sound trueRepresents falseRepresents var
  | negate operand => exact .of_yields (.negate sound (known operand List.mem_cons_self))
  | apply op left right =>
      exact .of_yields (.apply op sound (known left (by simp [Call.operands]))
        (known right (by simp [Call.operands])))
  | choose condition yes no =>
      exact .of_yields (.choose sound (known condition (by simp [Call.operands]))
        (known yes (by simp [Call.operands])) (known no (by simp [Call.operands])))
  | conjoin operands =>
      exact .of_yields (.after (run_record _ session) rfl
        (.foldlM .and sound trueRepresents known))
  | disjoin operands =>
      exact .of_yields (.after (run_record _ session) rfl
        (.foldlM .or sound falseRepresents known))
  | cofactors ref var =>
      refine .of_query (Manager.cofactors_of_represents (represents ref List.mem_cons_self) var) ?_
      intro refs diagrams unfold
      exact .pair unfold.1 unfold.2
  | size root =>
      exact .of_question (·.size root) .number (fun _ => rfl)
        (Manager.size_of_represents wellFormed (represents root List.mem_cons_self))
  | model ref =>
      exact .of_question (·.model? ref) .path (fun _ => rfl)
        (Manager.model?_of_represents wellFormed (represents ref List.mem_cons_self))
  | countModels ref domain =>
      exact .of_question (·.countModels ref domain) .models (fun _ => rfl)
        (Manager.countModels_of_represents wellFormed (represents ref List.mem_cons_self) domain)
  | varOf ref =>
      exact .of_question (·.var ref) (fun var => .number var.toNat) (fun _ => rfl)
        (Manager.var_of_represents (represents ref List.mem_cons_self))
  | lowOf ref =>
      exact .of_query (Manager.low_of_represents (represents ref List.mem_cons_self))
        fun _ _ => .id
  | highOf ref =>
      exact .of_query (Manager.high_of_represents (represents ref List.mem_cons_self))
        fun _ _ => .id
  | descendants | bracket | print | nodeOf | contains | nodeCount | isEmpty | describe | budget
  | table | memo => simp [Call.isFunctional] at functional

end SessionM
end DecisionDiagram
