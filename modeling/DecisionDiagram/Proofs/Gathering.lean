import DecisionDiagram.Proofs.Operators

/-!
# Conjunctions and disjunctions of lists

Both fold a connective over a list of ids.  The order of the list decides which functions are met
on the way, and so which nodes are made.  Where the fold arrives depends only on which ids are
listed: there is one id for the conjunction, or the disjunction, of their functions.
-/

namespace DecisionDiagram

/-! ## Folding a connective -/

namespace SessionM

open UniqueTable (represents_constant)

variable {session : Session} {call : Call Ref} {action : SessionM Ref} {operands : List Ref}
variable {made : List Diagram} {diagram : Diagram} {part : Ref → Assignment → Bool}

/-- Announce an event and fold a connective over some ids, from left to right. -/
def fold (op : BinaryOp) (unit : Bool) (event : Event) (operands : List Ref) : SessionM Ref := do
  record event
  operands.foldlM (DecisionDiagram.apply op) (.ofBool unit)

/-- Folding a connective over ids adds their functions one by one. -/
theorem Ensures.fold (op : BinaryOp) (unit : Bool) (event : Event) (sound : session.Sound)
    (stands : ∀ ref ∈ operands, session.table.StandsFor ref (part ref)) :
    Ensures (fold op unit event operands) session fun table ref =>
      table.StandsFor ref (operands.foldl (fun reached ref assignment =>
        op.eval (reached assignment) (part ref assignment)) fun _ => unit) := by
  have begun := session.table.standsFor_ofBool unit
  refine .after (run_record event session) rfl (.foldlM sound begun ?_)
  intro ref member state reached middle middleSound grown reachedStands
  exact .apply op middleSound reachedStands ((stands ref member).extend grown)

/-- Folding a connective over known ids leads to some diagram, unless the store is exhausted. -/
theorem Yields.fold (op : BinaryOp) (unit : Bool) (event : Event) (sound : session.Sound)
    (known : ∀ ref ∈ operands, session.table.Knows ref) :
    ∃ made diagram, Yields (fold op unit event operands) session made diagram := by
  have begun : session.table.Represents (.ofBool unit) (.constant unit) := represents_constant.2 rfl
  exact ⟨_, _, .after (run_record event session) rfl (.foldlM op sound begun known)⟩

theorem Yields.outcome (yields : Yields action session made diagram)
    (performs : call.perform = do return .ref (← action)) :
    (∃ ref, call.outcome session = .answered (.ref ref)) ∨
      call.outcome session = .full session.table.capacity := by
  rw [call.outcome_eq, performs]
  rcases yields with ⟨ref, later, run, _⟩ | ⟨later, run, _⟩
  · rw [run_bind_of_ok run]
    exact .inl ⟨ref, rfl⟩
  · rw [run_bind_of_error run]
    exact .inr rfl

end SessionM

/-! ## Gathering -/

/-- The calls that gather a list of ids into one, with what they make of the listed values. -/
inductive Call.Gathers : (List Ref → Call Ref) → (List Bool → Bool) → Prop where
  | conjoin : Call.Gathers .conjoin (·.all id)
  | disjoin : Call.Gathers .disjoin (·.any id)

namespace Call.Gathers

variable {gather : List Ref → Call Ref} {whole : List Bool → Bool}

/-- Gathering is folding a connective from what the empty list amounts to. -/
theorem exists_fold (gathers : Call.Gathers gather whole) :
    ∃ (op : BinaryOp) (unit : Bool) (event : Event),
      (∀ operands, (gather operands).perform =
        do return .ref (← SessionM.fold op unit event operands)) ∧
      ∀ (part : Ref → Assignment → Bool) (operands : List Ref),
        operands.foldl (fun reached ref assignment =>
          op.eval (reached assignment) (part ref assignment)) (fun _ => unit) =
          fun assignment => whole (operands.map (part · assignment)) := by
  cases gathers with
  | conjoin =>
      refine ⟨.and, true, .conjoin, fun _ => rfl, fun part operands => ?_⟩
      exact (SessionM.foldl_and part operands _).trans (by simp [List.all_map])
  | disjoin =>
      refine ⟨.or, false, .disjoin, fun _ => rfl, fun part operands => ?_⟩
      exact (SessionM.foldl_or part operands _).trans (by simp [List.any_map])

/-- What is made of a list depends only on which values it has. -/
theorem whole_congr (gathers : Call.Gathers gather whole) {values others : List Bool}
    (same : ∀ value, value ∈ values ↔ value ∈ others) : whole values = whole others := by
  rw [Bool.eq_iff_iff]
  cases gathers with
  | conjoin => simp only [List.all_eq_true, same]
  | disjoin => simp only [List.any_eq_true, same]

end Call.Gathers

/-- Conjoining known ids, or disjoining them, is answered unless the store is exhausted.  The
answer stands for the conjunction or the disjunction of their functions, and after whatever honest
calls the same ids in another order, with whatever repetitions, lead to it again. -/
theorem gathered_of_reachable {session : Session}
    (reachable : session.toManager.Reachable Call.isHonest) {gather : List Ref → Call Ref}
    {whole : List Bool → Bool} (gathers : Call.Gathers gather whole) {operands : List Ref}
    (known : ∀ operand ∈ operands, session.contains operand = true) :
    let later := (gather operands).after session
    (∀ result, (gather operands).outcome session = .answered (.ref result) →
      later.Gains session.toManager result (fun assignment =>
        whole (operands.map (session.table.function · assignment))) ∧
      ∀ (others : List Ref) (again : Ref) (last : Session),
        (∀ ref, ref ∈ others ↔ ref ∈ operands) →
        later.Obtains (gather others) again last → again = result) ∧
    ((∃ result, (gather operands).outcome session = .answered (.ref result)) ∨
      (gather operands).outcome session =
        .failed (.error (.capacityExhausted session.table.capacity))) := by
  intro later
  have sound : session.Sound := reachable.sound
  have knows : ∀ ref ∈ operands, session.table.Knows ref := fun ref member =>
    Manager.contains_iff_knows.1 (known ref member)
  have stands : ∀ ref ∈ operands, session.table.StandsFor ref (session.table.function ref) :=
    fun ref member => sound.wellFormed.standsFor_function (knows ref member)
  obtain ⟨op, unit, event, performs, folds⟩ := gathers.exists_fold
  refine ⟨?answered, ?outcomes⟩
  case answered =>
    intro result answered
    have ensures := SessionM.Ensures.fold op unit event sound stands
    rw [folds] at ensures
    refine ⟨ensures.gains sound (performs operands) answered, ?_⟩
    intro others again last same obtained
    obtain ⟨laterSound, grown, resultStands⟩ := ensures.of_outcome (performs operands) answered
    obtain ⟨lastSound, further, againStands⟩ := obtained.stands laterSound (performs others)
      fun middle middleSound middleGrown => SessionM.Ensures.fold op unit event middleSound
        fun ref member => ((stands ref ((same ref).1 member)).extend grown).extend middleGrown
    rw [folds] at againStands
    refine lastSound.wellFormed.ref_eq_of_standsFor againStands ?_
    have values : (fun assignment => whole (others.map (session.table.function · assignment))) =
        fun assignment => whole (operands.map (session.table.function · assignment)) :=
      funext fun assignment => gathers.whole_congr fun value => by simp only [List.mem_map, same]
    rw [values]
    exact resultStands.extend further
  case outcomes =>
    obtain ⟨made, diagram, yields⟩ := SessionM.Yields.fold op unit event sound knows
    exact yields.outcome (performs operands)

/-- Three variables in another order, one of them twice: on the way there is a conjunction that
the first list did not need, and in the end there is the same id. -/
theorem gathered_of_roomy :
    let later := (Call.conjoin [⟨7⟩, ⟨14⟩, ⟨15⟩]).after Session.roomy
    (Call.conjoin [⟨7⟩, ⟨14⟩, ⟨15⟩]).outcome Session.roomy = .answered (.ref ⟨13⟩) ∧
      (later.Gains Session.roomy.toManager ⟨13⟩ fun assignment =>
        ([⟨7⟩, ⟨14⟩, ⟨15⟩].map (Session.roomy.table.function · assignment)).all id) ∧
      later.table.size = 6 ∧
      ((Call.conjoin [⟨15⟩, ⟨14⟩, ⟨15⟩, ⟨7⟩]).after later).table.size = 7 ∧
      ∃ again, (Call.conjoin [⟨15⟩, ⟨14⟩, ⟨15⟩, ⟨7⟩]).outcome later =
        .answered (.ref again) ∧ again = ⟨13⟩ := by
  have same : ∀ ref : Ref, ref ∈ [⟨15⟩, ⟨14⟩, ⟨15⟩, ⟨7⟩] ↔ ref ∈ [⟨7⟩, ⟨14⟩, ⟨15⟩] := by
    intro ref
    simp only [List.mem_cons]
    tauto
  intro later
  have answered : (Call.conjoin [⟨7⟩, ⟨14⟩, ⟨15⟩]).outcome Session.roomy =
      .answered (.ref ⟨13⟩) := by
    decide +kernel
  have repeated : (Call.conjoin [⟨15⟩, ⟨14⟩, ⟨15⟩, ⟨7⟩]).outcome later =
      .answered (.ref ⟨13⟩) := by
    decide +kernel
  obtain ⟨answers, _⟩ := @gathered_of_reachable Session.roomy Session.reachable_roomy .conjoin _
    .conjoin [⟨7⟩, ⟨14⟩, ⟨15⟩] (by decide)
  obtain ⟨gains, unique⟩ := answers ⟨13⟩ answered
  exact ⟨answered, gains, by decide +kernel, by decide +kernel, ⟨13⟩, repeated,
    unique [⟨15⟩, ⟨14⟩, ⟨15⟩, ⟨7⟩] ⟨13⟩ _ same ⟨[], by simp, repeated, rfl⟩⟩

end DecisionDiagram
