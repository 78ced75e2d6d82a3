import DecisionDiagram.Proofs.Meaning
import DecisionDiagram.Proofs.Replay

/-!
# What operators answer

An id stands for a function when it unfolds into a diagram of it.  An operator on ids that
stand for functions answers, if it answers, with an id that stands for the function asked
for, and every id keeps its function on the way.  Longer computations are composed of
operators, and what they ensure is composed of what these ensure.
-/

namespace DecisionDiagram

/-! ## Functions of ids -/

namespace UniqueTable

variable {table later : UniqueTable} {ref other : Ref} {function : Assignment → Bool}

/-- The id unfolds into a diagram of the function. -/
def StandsFor (table : UniqueTable) (ref : Ref) (function : Assignment → Bool) : Prop :=
  ∃ diagram, table.Represents ref diagram ∧ diagram.eval = function

theorem StandsFor.extend (stands : table.StandsFor ref function) (grown : later.Extends table) :
    later.StandsFor ref function := by
  obtain ⟨diagram, represents, same⟩ := stands
  exact ⟨diagram, represents.extend grown, same⟩

theorem StandsFor.knows (stands : table.StandsFor ref function) : table.Knows ref := by
  obtain ⟨diagram, represents, _⟩ := stands
  exact represents.knows

theorem standsFor_ofBool (table : UniqueTable) (value : Bool) :
    table.StandsFor (.ofBool value) fun _ => value :=
  ⟨.constant value, represents_constant.2 rfl, rfl⟩

theorem WellFormed.standsFor_function (wellFormed : table.WellFormed) (known : table.Knows ref) :
    table.StandsFor ref (table.function ref) := by
  obtain ⟨diagram, represents⟩ := wellFormed.exists_represents known
  exact ⟨diagram, represents, (wellFormed.function_eq represents).symm⟩

theorem WellFormed.function_of_standsFor (wellFormed : table.WellFormed)
    (stands : table.StandsFor ref function) : table.function ref = function := by
  obtain ⟨diagram, represents, same⟩ := stands
  rw [wellFormed.function_eq represents, same]

theorem WellFormed.ref_eq_of_standsFor (wellFormed : table.WellFormed)
    (stands : table.StandsFor ref function) (otherStands : table.StandsFor other function) :
    ref = other := by
  apply wellFormed.ref_eq_of_function_eq stands.knows otherStands.knows
  rw [wellFormed.function_of_standsFor stands, wellFormed.function_of_standsFor otherStands]

end UniqueTable

/-! ## Ensuring answers -/

namespace SessionM

open UniqueTable (represents_constant)

variable {α β : Type} {session later : Session} {action : SessionM α} {next : α → SessionM β}
variable {condition weaker : UniqueTable → α → Prop} {result : UniqueTable → β → Prop}

/-- If the action is answered, the session is sound again, its store has grown, and the
answer meets a condition on that store. -/
def Ensures (action : SessionM α) (session : Session)
    (condition : UniqueTable → α → Prop) : Prop :=
  ∀ answer later, action.run session = .ok answer later →
    later.Sound ∧ later.table.Extends session.table ∧ condition later.table answer

theorem Ensures.pure {answer : α} (sound : session.Sound)
    (meets : condition session.table answer) : Ensures (Pure.pure answer) session condition := by
  intro given later run
  cases run
  exact ⟨sound, .refl _, meets⟩

theorem Ensures.weaken (ensures : Ensures action session condition)
    (implies : ∀ table answer, table.Extends session.table → condition table answer →
      weaker table answer) : Ensures action session weaker := by
  intro answer later run
  obtain ⟨sound, grown, meets⟩ := ensures answer later run
  exact ⟨sound, grown, implies later.table answer grown meets⟩

theorem Ensures.bind (first : Ensures action session condition)
    (second : ∀ answer (middle : Session), middle.Sound → middle.table.Extends session.table →
      condition middle.table answer → Ensures (next answer) middle result) :
    Ensures (action >>= next) session result := by
  intro answer later run
  obtain ⟨given, middle, begun, ended⟩ := exists_of_run_bind_eq_ok run
  obtain ⟨middleSound, grown, meets⟩ := first given middle begun
  obtain ⟨sound, further, done⟩ := second given middle middleSound grown meets answer later ended
  exact ⟨sound, further.trans grown, done⟩

/-- A step that does not touch the store may come first. -/
theorem Ensures.after {answer : α} (run : action.run session = .ok answer later)
    (same : later.table = session.table) (rest : Ensures (next answer) later result) :
    Ensures (action >>= next) session result := by
  intro given last ended
  rw [run_bind_of_ok run] at ended
  obtain ⟨sound, grown, meets⟩ := rest given last ended
  exact ⟨sound, same ▸ grown, meets⟩

theorem Ensures.of_yields {action : SessionM Ref} {made : List Diagram} {diagram : Diagram}
    (yields : Yields action session made diagram) :
    Ensures action session fun table ref => table.StandsFor ref diagram.eval := by
  intro ref later run
  rcases yields with ⟨issued, last, issues, sound, grown, represents, _⟩ | ⟨last, fails, _⟩
  · rw [run] at issues
    cases issues
    exact ⟨sound, grown, diagram, represents, rfl⟩
  · rw [run] at fails
    cases fails

/-! ## Operators -/

variable {key : Key} {diagram : Diagram} {made : List Diagram} {first second third : Ref}
variable {firstFunction secondFunction thirdFunction : Assignment → Bool}

/-- What yields the right result for a key answers with the function that the key's operator
makes of its operands' functions. -/
theorem Ensures.of_denotes {action : SessionM Ref} (sound : session.Sound)
    (firstStands : session.table.StandsFor key.first firstFunction)
    (secondStands : session.table.StandsFor key.second secondFunction)
    (thirdStands : session.table.StandsFor key.third thirdFunction)
    (denotes : session.table.Denotes key diagram) (yields : Yields action session made diagram) :
    Ensures action session fun table ref => table.StandsFor ref fun assignment =>
      key.op.eval (firstFunction assignment) (secondFunction assignment)
        (thirdFunction assignment) := by
  have wellFormed := sound.wellFormed
  have ensures := Ensures.of_yields yields
  rw [denotes.eval_eq] at ensures
  unfold UniqueTable.asked at ensures
  rwa [wellFormed.function_of_standsFor firstStands, wellFormed.function_of_standsFor secondStands,
    wellFormed.function_of_standsFor thirdStands] at ensures

theorem Ensures.negate (sound : session.Sound)
    (stands : session.table.StandsFor first firstFunction) :
    Ensures (DecisionDiagram.negate first) session fun table ref =>
      table.StandsFor ref fun assignment => !firstFunction assignment := by
  have padding := session.table.standsFor_ofBool false
  have denotes := sound.wellFormed.denotes_negation stands.knows
  exact .of_denotes sound stands padding padding denotes (.negate sound stands.knows)

theorem Ensures.apply (op : BinaryOp) (sound : session.Sound)
    (firstStands : session.table.StandsFor first firstFunction)
    (secondStands : session.table.StandsFor second secondFunction) :
    Ensures (DecisionDiagram.apply op first second) session fun table ref =>
      table.StandsFor ref fun assignment =>
        op.eval (firstFunction assignment) (secondFunction assignment) := by
  have padding := session.table.standsFor_ofBool false
  have denotes := sound.wellFormed.denotes_binary op firstStands.knows secondStands.knows
  exact .of_denotes sound firstStands secondStands padding denotes
    (.apply op sound firstStands.knows secondStands.knows)

theorem Ensures.choose (sound : session.Sound)
    (firstStands : session.table.StandsFor first firstFunction)
    (secondStands : session.table.StandsFor second secondFunction)
    (thirdStands : session.table.StandsFor third thirdFunction) :
    Ensures (DecisionDiagram.choose first second third) session fun table ref =>
      table.StandsFor ref fun assignment =>
        (firstFunction assignment && secondFunction assignment) ||
          (!firstFunction assignment && thirdFunction assignment) := by
  have denotes := @UniqueTable.WellFormed.denotes_operate session.table
    (.conditional first second third) sound.wellFormed
    ⟨firstStands.knows, secondStands.knows, thirdStands.knows⟩
  exact .of_denotes sound firstStands secondStands thirdStands denotes
    (.choose sound firstStands.knows secondStands.knows thirdStands.knows)

/-- A variable is made only if it is usable, and stands for its own value. -/
theorem Ensures.makeVar (sound : session.Sound) (var : Var) :
    Ensures (DecisionDiagram.makeVar var) session fun table ref =>
      var ≠ terminalVar ∧ table.StandsFor ref fun assignment => assignment var := by
  have falseRepresents : session.table.Represents .falseRef (.constant false) :=
    represents_constant.2 rfl
  have trueRepresents : session.table.Represents .trueRef (.constant true) :=
    represents_constant.2 rfl
  by_cases reserved : var = terminalVar
  case pos =>
    have refused : Diagram.build var (.constant false) (.constant true) =
        .error (.violation .reservedVariable) := by
      rw [Diagram.build, if_pos reserved]
    obtain ⟨_, fails, _⟩ :=
      exists_run_make_of_build sound falseRepresents trueRepresents refused
    intro ref later run
    rw [DecisionDiagram.makeVar, fails] at run
    cases run
  case neg =>
    have usable : ¬terminalVar ≤ var := UInt32.not_le.2 (lt_terminalVar reserved)
    have built : Diagram.build var (.constant false) (.constant true) =
        .ok (.decision var (.constant false) (.constant true)) := by
      simp [Diagram.build, reserved, usable]
    refine (Ensures.of_yields (.make sound falseRepresents trueRepresents built)).weaken ?_
    intro table ref _ stands
    refine ⟨reserved, ?_⟩
    simpa [Diagram.eval] using stands

/-! ## Lists -/

/-- If every step adds its item to a function, folding adds the items one by one. -/
theorem Ensures.foldlM {γ : Type} {step : Ref → γ → SessionM Ref} {items : List γ} {start : Ref}
    {function : Assignment → Bool} {combine : (Assignment → Bool) → γ → Assignment → Bool}
    (sound : session.Sound) (stands : session.table.StandsFor start function)
    (each : ∀ item ∈ items, ∀ (state : Ref) (reached : Assignment → Bool) (middle : Session),
      middle.Sound → middle.table.Extends session.table → middle.table.StandsFor state reached →
      Ensures (step state item) middle fun table ref =>
        table.StandsFor ref (combine reached item)) :
    Ensures (items.foldlM step start) session fun table ref =>
      table.StandsFor ref (items.foldl combine function) := by
  induction items generalizing start function session with
  | nil => exact .pure sound stands
  | cons item rest ih =>
      rw [List.foldlM_cons, List.foldl_cons]
      have step := each item List.mem_cons_self start function session sound (.refl _) stands
      refine .bind step fun state middle middleSound grown reached => ?_
      refine ih middleSound reached fun other member state reached last lastSound further => ?_
      exact each other (List.mem_cons_of_mem item member) state reached last lastSound
        (further.trans grown)

section Parts

variable {γ : Type} {part : γ → Assignment → Bool} {items : List γ}

theorem foldl_and (part : γ → Assignment → Bool) (items : List γ) (function : Assignment → Bool) :
    items.foldl (fun reached item assignment => reached assignment && part item assignment)
      function = fun assignment => function assignment && items.all (part · assignment) := by
  induction items generalizing function with
  | nil => simp
  | cons item rest ih =>
      rw [List.foldl_cons, ih]
      simp only [List.all_cons, Bool.and_assoc]

theorem foldl_or (part : γ → Assignment → Bool) (items : List γ) (function : Assignment → Bool) :
    items.foldl (fun reached item assignment => reached assignment || part item assignment)
      function = fun assignment => function assignment || items.any (part · assignment) := by
  induction items generalizing function with
  | nil => simp
  | cons item rest ih =>
      rw [List.foldl_cons, ih]
      simp only [List.any_cons, Bool.or_assoc]

/-- Conjoining what is built for each item of a list leads to the conjunction of the parts. -/
theorem Ensures.conjoinAll {build : γ → SessionM Ref} {start : Ref} {function : Assignment → Bool}
    (sound : session.Sound) (stands : session.table.StandsFor start function)
    (each : ∀ item ∈ items, ∀ middle : Session, middle.Sound →
      middle.table.Extends session.table →
      Ensures (build item) middle fun table ref => table.StandsFor ref (part item)) :
    Ensures (items.foldlM (fun constraint item => do
        DecisionDiagram.apply .and constraint (← build item)) start) session
      fun table ref => table.StandsFor ref fun assignment =>
        function assignment && items.all (part · assignment) := by
  rw [← foldl_and]
  refine .foldlM sound stands fun item member state reached middle middleSound grown stands => ?_
  have built := each item member middle middleSound grown
  exact .bind built fun ref last lastSound further builtStands =>
    .apply .and lastSound (stands.extend further) builtStands

/-- Disjoining a list of ids leads to the disjunction of what they stand for. -/
theorem Ensures.disjoin {operands : List Ref} {part : Ref → Assignment → Bool}
    (sound : session.Sound) (stands : ∀ ref ∈ operands, session.table.StandsFor ref (part ref)) :
    Ensures (DecisionDiagram.disjoin operands) session fun table ref =>
      table.StandsFor ref fun assignment => operands.any (part · assignment) := by
  have whole := foldl_or part operands fun _ => false
  simp only [Bool.false_or] at whole
  rw [← whole, DecisionDiagram.disjoin]
  have nothing := session.table.standsFor_ofBool false
  refine .after (run_record _ session) rfl (.foldlM sound nothing ?_)
  intro ref member state reached middle middleSound grown reachedStands
  exact .apply .or middleSound reachedStands ((stands ref member).extend grown)

end Parts

end SessionM

/-! ## Answered calls -/

/-- The later manager knows the id, which stands for the function, and every id that the
earlier manager knew still stands for its own. -/
structure Manager.Gains (later earlier : Manager) (ref : Ref) (function : Assignment → Bool) :
    Prop where
  contains : later.contains ref = true
  function_eq : later.table.function ref = function
  kept : ∀ other, earlier.contains other = true →
    later.contains other = true ∧ later.table.function other = earlier.table.function other

/-- After some honest calls a call is answered with an id. -/
def Session.Obtains (earlier : Session) (call : Call Ref) (ref : Ref) (later : Session) : Prop :=
  ∃ calls : List (Call Ref), (∀ other ∈ calls, other.isHonest = true) ∧
    call.outcome (earlier.run calls) = .answered (.ref ref) ∧
    call.after (earlier.run calls) = later

section Answered

open SessionM (Ensures)

variable {session earlier later : Session} {action : SessionM Ref} {call : Call Ref} {ref : Ref}
variable {op : BinaryOp} {left right operand : Ref}
variable {function leftFunction rightFunction : Assignment → Bool}

theorem SessionM.Ensures.of_outcome {condition : UniqueTable → Ref → Prop}
    (ensures : Ensures action session condition)
    (performs : call.perform = do return .ref (← action))
    (answered : call.outcome session = .answered (.ref ref)) :
    (call.after session).Sound ∧ (call.after session).table.Extends session.table ∧
      condition (call.after session).table ref := by
  have run := Call.run_of_outcome answered
  rw [performs] at run
  obtain ⟨given, middle, begun, ended⟩ := exists_of_run_bind_eq_ok run
  cases ended
  exact ensures _ _ begun

theorem Manager.Gains.of_standsFor {earlier later : Manager} (wellFormed : earlier.table.WellFormed)
    (laterWellFormed : later.table.WellFormed) (grown : later.table.Extends earlier.table)
    (stands : later.table.StandsFor ref function) : later.Gains earlier ref function := by
  refine ⟨Manager.contains_iff_knows.2 stands.knows,
    laterWellFormed.function_of_standsFor stands, ?_⟩
  intro other contains
  have known := Manager.contains_iff_knows.1 contains
  exact ⟨Manager.contains_iff_knows.2 (grown.knows known),
    wellFormed.function_extend laterWellFormed grown known⟩

theorem SessionM.Ensures.gains (ensures : Ensures action session fun table ref =>
      table.StandsFor ref function) (sound : session.Sound)
    (performs : call.perform = do return .ref (← action))
    (answered : call.outcome session = .answered (.ref ref)) :
    (call.after session).Gains session.toManager ref function := by
  obtain ⟨laterSound, grown, stands⟩ := ensures.of_outcome performs answered
  exact .of_standsFor sound.wellFormed laterSound.wellFormed grown stands

theorem Session.Obtains.stands (obtains : earlier.Obtains call ref later) (sound : earlier.Sound)
    (performs : call.perform = do return .ref (← action))
    (ensures : ∀ middle : Session, middle.Sound → middle.table.Extends earlier.table →
      Ensures action middle fun table ref => table.StandsFor ref function) :
    later.Sound ∧ later.table.Extends earlier.table ∧ later.table.StandsFor ref function := by
  obtain ⟨calls, honest, answered, rfl⟩ := obtains
  obtain ⟨middleSound, grown⟩ := Session.sound_run sound honest
  obtain ⟨laterSound, further, stands⟩ :=
    (ensures _ middleSound grown).of_outcome performs answered
  exact ⟨laterSound, further.trans grown, stands⟩

theorem Session.Obtains.negate (obtains : earlier.Obtains (.negate operand) ref later)
    (sound : earlier.Sound) (stands : earlier.table.StandsFor operand function) :
    later.Sound ∧ later.table.Extends earlier.table ∧
      later.table.StandsFor ref fun assignment => !function assignment :=
  obtains.stands sound rfl fun _ middleSound grown => .negate middleSound (stands.extend grown)

theorem Session.Obtains.apply (obtains : earlier.Obtains (.apply op left right) ref later)
    (sound : earlier.Sound) (leftStands : earlier.table.StandsFor left leftFunction)
    (rightStands : earlier.table.StandsFor right rightFunction) :
    later.Sound ∧ later.table.Extends earlier.table ∧
      later.table.StandsFor ref fun assignment =>
        op.eval (leftFunction assignment) (rightFunction assignment) :=
  obtains.stands sound rfl fun _ middleSound grown =>
    .apply op middleSound (leftStands.extend grown) (rightStands.extend grown)

end Answered

/-- On known ids, whatever is remembered and whichever tests come first: if a binary
connective is answered, the answer stands for the connective of the operands' functions, and
if a negation is answered, for the complement; and no known id changes its function. -/
theorem connective_of_reachable {session : Session}
    (reachable : session.toManager.Reachable Call.isHonest) :
    (∀ (op : BinaryOp) (left right result : Ref), session.contains left = true →
      session.contains right = true →
      (Call.apply op left right).outcome session = .answered (.ref result) →
      ((Call.apply op left right).after session).Gains session.toManager result
        fun assignment => op.eval (session.table.function left assignment)
          (session.table.function right assignment)) ∧
    ∀ operand result : Ref, session.contains operand = true →
      (Call.negate operand).outcome session = .answered (.ref result) →
      ((Call.negate operand).after session).Gains session.toManager result
        fun assignment => !session.table.function operand assignment := by
  have sound : session.Sound := reachable.sound
  have stands : ∀ ref, session.contains ref = true →
      session.table.StandsFor ref (session.table.function ref) := fun ref contains =>
    sound.wellFormed.standsFor_function (Manager.contains_iff_knows.1 contains)
  constructor
  · intro op left right result leftKnown rightKnown answered
    have ensures :=
      SessionM.Ensures.apply op sound (stands left leftKnown) (stands right rightKnown)
    exact ensures.gains sound rfl answered
  · intro operand result known answered
    exact (SessionM.Ensures.negate sound (stands operand known)).gains sound rfl answered

/-- Two variables in a store with one slot left, which their implication takes, or else a
negation. -/
theorem connective_of_crowded :
    Session.crowded.toManager.Reachable Call.isHonest ∧
      (Call.apply .imply ⟨2⟩ ⟨3⟩).outcome Session.crowded = .answered (.ref ⟨5⟩) ∧
      (((Call.apply .imply ⟨2⟩ ⟨3⟩).after Session.crowded).Gains Session.crowded.toManager ⟨5⟩
        fun assignment => !Session.crowded.table.function ⟨2⟩ assignment ||
          Session.crowded.table.function ⟨3⟩ assignment) ∧
      (Call.negate ⟨2⟩).outcome Session.crowded = .answered (.ref ⟨5⟩) ∧
      ((Call.negate ⟨2⟩).after Session.crowded).Gains Session.crowded.toManager ⟨5⟩
        fun assignment => !Session.crowded.table.function ⟨2⟩ assignment := by
  have reachable : Session.crowded.toManager.Reachable Call.isHonest :=
    (Session.reachable_fresh Call.isHonest).run _ (by decide)
  have implied : (Call.apply .imply ⟨2⟩ ⟨3⟩).outcome Session.crowded = .answered (.ref ⟨5⟩) := by
    decide +kernel
  have negated : (Call.negate ⟨2⟩).outcome Session.crowded = .answered (.ref ⟨5⟩) := by
    decide +kernel
  obtain ⟨connectives, negations⟩ := connective_of_reachable reachable
  exact ⟨reachable, implied, connectives .imply ⟨2⟩ ⟨3⟩ ⟨5⟩ (by decide) (by decide) implied,
    negated, negations ⟨2⟩ ⟨5⟩ (by decide) negated⟩

/-- A session of a new manager with room for sixteen nodes, and three variables. -/
def Session.roomy : Session :=
  ({ fresh with table := .empty 16 (by decide) (by decide), budget := ⟨256, 24⟩ } : Session).run
    [.makeVar 2, .makeVar 1, .makeVar 0]

theorem Session.reachable_roomy : roomy.toManager.Reachable Call.isHonest :=
  Manager.Reachable.run (@Manager.Reachable.created Call.isHonest 256 ⟨256, 24⟩ {} {} _ rfl) _
    (by decide)

/-- If an if-then-else of known ids is answered, the answer stands for the choice between the
branches' functions, no known id changes its function, and working the choice out by
conjunctions, a negation and a disjunction leads to the same id. -/
theorem choose_of_reachable {session : Session}
    (reachable : session.toManager.Reachable Call.isHonest) {condition yes no result : Ref}
    (conditionKnown : session.contains condition = true) (yesKnown : session.contains yes = true)
    (noKnown : session.contains no = true)
    (chosen : (Call.choose condition yes no).outcome session = .answered (.ref result)) :
    let later := (Call.choose condition yes no).after session
    later.Gains session.toManager result (fun assignment =>
      (session.table.function condition assignment && session.table.function yes assignment) ||
        (!session.table.function condition assignment && session.table.function no assignment)) ∧
    ∀ (both complement other whole : Ref) (first second third last : Session),
      later.Obtains (.apply .and condition yes) both first →
      first.Obtains (.negate condition) complement second →
      second.Obtains (.apply .and complement no) other third →
      third.Obtains (.apply .or both other) whole last → whole = result := by
  intro later
  have sound : session.Sound := reachable.sound
  have stands : ∀ ref, session.contains ref = true →
      session.table.StandsFor ref (session.table.function ref) := fun ref contains =>
    sound.wellFormed.standsFor_function (Manager.contains_iff_knows.1 contains)
  have conditionStands := stands condition conditionKnown
  have yesStands := stands yes yesKnown
  have noStands := stands no noKnown
  have ensures := SessionM.Ensures.choose sound conditionStands yesStands noStands
  refine ⟨ensures.gains sound rfl chosen, ?_⟩
  intro both complement other whole first second third last conjoined negated otherwise joined
  have performs : (Call.choose condition yes no).perform =
      do return .ref (← DecisionDiagram.choose condition yes no) := rfl
  obtain ⟨laterSound, grown, resultStands⟩ := ensures.of_outcome performs chosen
  obtain ⟨firstSound, firstGrown, bothStands⟩ :=
    conjoined.apply laterSound (conditionStands.extend grown) (yesStands.extend grown)
  obtain ⟨secondSound, secondGrown, complementStands⟩ :=
    negated.negate firstSound (conditionStands.extend (firstGrown.trans grown))
  have noGrown := (secondGrown.trans firstGrown).trans grown
  obtain ⟨thirdSound, thirdGrown, otherStands⟩ :=
    otherwise.apply secondSound complementStands (noStands.extend noGrown)
  obtain ⟨lastSound, lastGrown, wholeStands⟩ := joined.apply thirdSound
    (bothStands.extend (thirdGrown.trans secondGrown)) otherStands
  have grownLast := (lastGrown.trans thirdGrown).trans (secondGrown.trans firstGrown)
  exact lastSound.wellFormed.ref_eq_of_standsFor wholeStands (resultStands.extend grownLast)

/-- Choosing between two variables by a third, and working the choice out with everything
forgotten before the last step. -/
theorem choose_of_roomy :
    let later := (Call.choose ⟨14⟩ ⟨15⟩ ⟨7⟩).after Session.roomy
    let first := (Call.apply .and ⟨14⟩ ⟨15⟩).after later
    let second := (Call.negate ⟨14⟩).after first
    let third := (Call.apply .and ⟨9⟩ ⟨7⟩).after second
    (Call.choose ⟨14⟩ ⟨15⟩ ⟨7⟩).outcome Session.roomy = .answered (.ref ⟨8⟩) ∧
      ∃ whole, (Call.apply .or ⟨13⟩ ⟨11⟩).outcome (third.run [.memo .clear]) =
        .answered (.ref whole) ∧ whole = ⟨8⟩ := by
  intro later first second third
  have chosen : (Call.choose ⟨14⟩ ⟨15⟩ ⟨7⟩).outcome Session.roomy = .answered (.ref ⟨8⟩) := by
    decide +kernel
  have joined : (Call.apply .or ⟨13⟩ ⟨11⟩).outcome (third.run [.memo .clear]) =
      .answered (.ref ⟨8⟩) := by
    decide +kernel
  obtain ⟨_, same⟩ := choose_of_reachable Session.reachable_roomy (by decide) (by decide)
    (by decide) chosen
  let last := (Call.apply .or ⟨13⟩ ⟨11⟩).after (third.run [.memo .clear])
  refine ⟨chosen, ⟨8⟩, joined, same ⟨13⟩ ⟨9⟩ ⟨11⟩ ⟨8⟩ first second third last ?_ ?_ ?_ ?_⟩
  · exact ⟨[], by simp, by decide +kernel, rfl⟩
  · exact ⟨[], by simp, by decide +kernel, rfl⟩
  · exact ⟨[], by simp, by decide +kernel, rfl⟩
  · exact ⟨[.memo .clear], by decide, joined, rfl⟩

end DecisionDiagram
