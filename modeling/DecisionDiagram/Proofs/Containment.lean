import DecisionDiagram.Proofs.Footprint
import DecisionDiagram.Proofs.Recall
import DecisionDiagram.Proofs.Unknown

/-!
# Unknown ids are contained

An operator that is given an id which denotes nothing cannot do any harm with it.  Either its
operands settle the result whatever the id may stand for, or the operator stops at an unknown
operand.  Nothing is stored and nothing is remembered, so when the id comes into use later,
nothing that was worked out before is mistaken for its result.
-/

namespace DecisionDiagram

namespace UniqueTable

variable {table : UniqueTable} {key : Key} {ref operand left right condition yes no : Ref}
variable {op : BinaryOp} {functions : Ref → Assignment → Bool}

theorem Admits.knows_of_mem (admits : table.Admits key) (member : ref ∈ key.operands) :
    table.Knows ref := by
  have place := List.mem_of_mem_take member
  simp only [List.mem_cons, List.not_mem_nil, or_false] at place
  rcases place with rfl | rfl | rfl
  · exact admits.first
  · exact admits.second
  · exact admits.third

/-! ## Results that operands settle -/

/-- The ids that the store knows have their functions; the others may have any. -/
def Interprets (table : UniqueTable) (functions : Ref → Assignment → Bool) : Prop :=
  ∀ ref, table.Knows ref → functions ref = table.function ref

/-- The result is an operand or a constant, and right whatever the unknown ids stand for. -/
structure Settles (table : UniqueTable) (key : Key) (result : Ref) : Prop where
  drawn : result ∈ key.operands ∨ ∃ value, result = .ofBool value
  function_eq : ∀ functions, table.Interprets functions → functions result =
    fun assignment => key.op.evalList (key.operands.map fun operand => functions operand assignment)

theorem WellFormed.respectful_of_interprets (wellFormed : table.WellFormed)
    (interprets : table.Interprets functions) (assignment : Assignment) :
    Respectful fun ref => functions ref assignment := by
  have own : ∀ value, functions (.ofBool value) assignment = value := by
    intro value
    rw [interprets _ (table.knows_ofBool value), wellFormed.function_ofBool]
  exact ⟨own false, own true⟩

theorem WellFormed.settles_binary (wellFormed : table.WellFormed)
    (found : op.shortcut? left right = some (.is ref)) :
    table.Settles (.binary op left right) ref := by
  refine ⟨?drawn, ?function_eq⟩
  case drawn =>
    have operands : (Key.binary op left right).operands = [left, right] := rfl
    have target : ref = left ∨ ref = right ∨ ∃ value, ref = .ofBool value :=
      BinaryOp.target_of_shortcut? found
    simpa only [operands, List.mem_cons, List.not_mem_nil, or_false, or_assoc] using target
  case function_eq =>
    intro functions interprets
    funext assignment
    rw [Key.evalList_operands _ fun operand => functions operand assignment]
    exact BinaryOp.eval_of_shortcut?
      (wellFormed.respectful_of_interprets interprets assignment) found

theorem WellFormed.settles_conditional (wellFormed : table.WellFormed)
    (found : chooseShortcut? condition yes no = some (.is ref)) :
    table.Settles (.conditional condition yes no) ref := by
  refine ⟨.inl ?drawn, ?function_eq⟩
  case drawn =>
    have operands : (Key.conditional condition yes no).operands = [condition, yes, no] := rfl
    have target : ref = condition ∨ ref = yes ∨ ref = no := target_of_chooseShortcut? found
    simpa only [operands, List.mem_cons, List.not_mem_nil, or_false] using target
  case function_eq =>
    intro functions interprets
    funext assignment
    rw [Key.evalList_operands _ fun operand => functions operand assignment]
    exact eval_of_chooseShortcut?
      (wellFormed.respectful_of_interprets interprets assignment) found

end UniqueTable

/-! ## Lookups in vain -/

/-- The managers differ at most in the counts of lookups in vain. -/
def Manager.Spares (later earlier : Manager) : Prop :=
  ∃ misses faults, later =
    { earlier with memo := { earlier.memo with missCount := misses, faultCount := faults } }

theorem Memo.count_of_not {memo : Memo} {key : Key} (missed : memo.find? key = none) :
    ∃ misses faults, memo.count key = { memo with missCount := misses, faultCount := faults } := by
  simp only [find?] at missed
  simp only [count]
  cases held : memo.entries[memo.index key]? with
  | none => exact ⟨memo.missCount + 1, memo.faultCount, rfl⟩
  | some entry =>
      rw [held] at missed
      by_cases same : entry.key = key
      · simp [same] at missed
      · exact ⟨memo.missCount + 1, memo.faultCount + 1, by simp [same]⟩

/-- Nothing is remembered for keys that mention unknown ids. -/
theorem Manager.Sound.find?_of_unknown {manager : Manager} {key : Key} {ref : Ref}
    (sound : manager.Sound) (member : ref ∈ key.operands) (unknown : ¬manager.table.Knows ref) :
    manager.memo.find? key = none := by
  cases found : manager.memo.find? key with
  | none => rfl
  | some result => exact absurd ((sound.justifies found).admits.knows_of_mem member) unknown

namespace SessionM

variable {session : Session} {action : SessionM Ref} {key other : Key} {depth : Nat}
variable {op : BinaryOp} {operand left right condition yes no : Ref}

/-- The action stops at an unknown operand, or its operands settle the answer; in both cases
no more happens than a lookup in vain. -/
def Evades (action : SessionM Ref) (key : Key) (session : Session) : Prop :=
  ∃ later : Session, later.Spares session.toManager ∧
    ((∃ ref ∈ key.operands, ¬session.table.Knows ref ∧
        action.run session = .error (.violation (.unknownNode ref)) later) ∨
      ∃ result, session.table.Settles key result ∧ action.run session = .ok result later)

theorem Evades.of_refuses (sound : session.Sound) (refuses : Refuses action other session)
    (operands : ∀ ref ∈ other.operands, ref ∈ key.operands) : Evades action key session := by
  obtain ⟨ref, member, unknown, journal, run⟩ := refuses
  obtain ⟨misses, faults, missed⟩ := Memo.count_of_not (sound.find?_of_unknown member unknown)
  refine ⟨_, ⟨misses, faults, ?_⟩, .inl ⟨ref, operands ref member, unknown, run⟩⟩
  simp only [missed]

theorem Evades.pure {result : Ref} (settles : session.table.Settles key result) :
    Evades (Pure.pure result) key session :=
  ⟨session, ⟨_, _, rfl⟩, .inr ⟨result, settles, rfl⟩⟩

theorem Evades.record {event : Event}
    (evades : ∀ recorded : Session, recorded.toManager = session.toManager →
      Evades action key recorded) :
    Evades (do
      SessionM.record event
      action) key session := by
  obtain ⟨later, spares, ends⟩ :=
    evades { session with journal := session.journal.record event } rfl
  refine ⟨later, spares, ?_⟩
  rw [run_bind_of_ok (run_record event session)]
  exact ends

theorem Evades.negateWithin (sound : session.Sound) (unknown : ¬session.table.Knows operand) :
    Evades (DecisionDiagram.negateWithin (depth + 1) operand) (.negation operand) session :=
  .of_refuses sound (.negateWithin sound unknown) fun _ member => member

/-- A negation takes the place of a connective only if the other operand is a constant, so the
operand to be negated is the unknown one. -/
theorem Evades.applyWithin (sound : session.Sound)
    (unknown : ∃ ref ∈ (Key.binary op left right).operands, ¬session.table.Knows ref) :
    Evades (DecisionDiagram.applyWithin (depth + 2) op left right) (.binary op left right)
      session := by
  have operands : ∀ first second, (Key.binary op first second).operands = [first, second] :=
    fun _ _ => rfl
  obtain ⟨ref, member, notKnown⟩ := unknown
  cases found : op.shortcut? left right with
  | none =>
      obtain ⟨first, second, arranged, refuses⟩ :=
        Refuses.applyWithin sound found fun admits => notKnown (admits.knows_of_mem member)
      apply Evades.of_refuses sound refuses
      rw [operands, operands]
      rcases op.arrange_cases left right with same | ⟨_, swapped⟩
      · rw [same] at arranged
        cases arranged
        exact fun _ member => member
      · rw [swapped] at arranged
        cases arranged
        simp
  | some shortcut =>
      rw [DecisionDiagram.applyWithin, found]
      cases shortcut with
      | is result => exact .pure (sound.wellFormed.settles_binary found)
      | negationOf operand =>
          simp only [operands, List.mem_cons, List.not_mem_nil, or_false] at member
          have notConstant : ∀ value, ref ≠ .ofBool value := by
            rintro value rfl
            exact notKnown (session.table.knows_ofBool value)
          have same : operand = ref := by
            rcases BinaryOp.constant_of_negationOf found with
              ⟨rfl, value, constant⟩ | ⟨rfl, value, constant⟩
            · exact (member.resolve_right (constant ▸ notConstant value)).symm
            · exact (member.resolve_left (constant ▸ notConstant value)).symm
          subst same
          apply Evades.of_refuses sound (.negateWithin sound notKnown)
          simp [Key.operands, Key.negation, Key.binary, Operator.arity, member]

theorem Evades.chooseWithin (sound : session.Sound)
    (unknown : ∃ ref ∈ (Key.conditional condition yes no).operands, ¬session.table.Knows ref) :
    Evades (DecisionDiagram.chooseWithin (depth + 2) condition yes no)
      (.conditional condition yes no) session := by
  have operands : (Key.conditional condition yes no).operands = [condition, yes, no] := rfl
  obtain ⟨ref, member, notKnown⟩ := unknown
  cases found : chooseShortcut? condition yes no with
  | none =>
      exact .of_refuses sound
        (.chooseWithin sound found fun admits => notKnown (admits.knows_of_mem member))
        fun _ member => member
  | some shortcut =>
      rw [DecisionDiagram.chooseWithin, found]
      apply Evades.record
      intro recorded same
      rw [← same] at sound notKnown
      cases shortcut with
      | is result => exact .pure (sound.wellFormed.settles_conditional found)
      | negationOf operand =>
          obtain ⟨rfl, rfl, rfl⟩ := constants_of_negationOf found
          simp only [operands, List.mem_cons, List.not_mem_nil, or_false] at member
          rcases member with rfl | rfl | rfl
          · apply Evades.of_refuses sound (.negateWithin sound notKnown)
            simp [Key.operands, Key.negation, Key.conditional, Operator.arity]
          · exact absurd (recorded.table.knows_ofBool false) notKnown
          · exact absurd (recorded.table.knows_ofBool true) notKnown

/-- An operator evades unknown operands. -/
theorem Evades.perform {call : Call Ref} (sound : session.Sound) (asks : call.key? = some key)
    (unknown : ∃ ref ∈ key.operands, ¬session.table.Knows ref) :
    ∃ action, call.perform = (do return .ref (← action)) ∧ Evades action key session := by
  cases call with
  | negate operand =>
      cases asks
      refine ⟨DecisionDiagram.negate operand, rfl, .negateWithin sound ?_⟩
      simpa [Key.operands, Key.negation, Operator.arity] using unknown
  | apply op left right =>
      cases asks
      refine ⟨DecisionDiagram.apply op left right, rfl, .record ?_⟩
      intro recorded same
      rw [← same] at sound unknown
      exact .applyWithin sound unknown
  | choose condition yes no =>
      cases asks
      exact ⟨DecisionDiagram.choose condition yes no, rfl, .chooseWithin sound unknown⟩
  | _ => cases asks

end SessionM

/-- A call to an operator with an unknown operand stores nothing and remembers nothing.  It
fails by naming an unknown operand, or it is answered with an operand or a constant that is
right whatever the unknown ids stand for.  What is remembered never mentions an unknown id, so
an id that comes into use later is not taken for one that was there before. -/
theorem contained_of_reachable {session : Session}
    (reachable : session.toManager.Reachable Call.isHonest) :
    (∀ (call : Call Ref) (key : Key), call.key? = some key →
      (∃ operand ∈ key.operands, session.contains operand = false) →
        (call.after session).Spares session.toManager ∧
        ((∃ unknown ∈ key.operands, session.contains unknown = false ∧
            call.outcome session = .failed (.violation (.unknownNode unknown))) ∨
          ∃ result, session.table.Settles key result ∧
            call.outcome session = .answered (.ref result))) ∧
    (∀ (index : Nat) (entry : Memo.Entry), session.memo.entries[index]? = some entry →
      ∀ ref ∈ entry.result :: entry.key.operands, session.contains ref = true) ∧
    ∀ key : Key, (∃ operand ∈ key.operands, session.contains operand = false) →
      session.memo.find? key = none := by
  have sound : session.Sound := reachable.sound
  refine ⟨?operators, ?entries, ?lookups⟩
  case operators =>
    intro call key asks unknown
    simp only [Manager.contains_eq_false_iff] at unknown ⊢
    obtain ⟨action, performs, later, spares, ends⟩ :=
      SessionM.Evades.perform sound asks unknown
    simp only [Call.after_eq, Call.outcome_eq, performs]
    rcases ends with ⟨ref, member, notKnown, run⟩ | ⟨result, settles, run⟩
    · rw [run_bind_of_error run]
      exact ⟨spares, .inl ⟨ref, member, notKnown, rfl⟩⟩
    · rw [run_bind_of_ok run]
      exact ⟨spares, .inr ⟨result, settles, rfl⟩⟩
  case entries =>
    intro index entry stored ref member
    have justified := sound.remembers index entry stored
    rw [Manager.contains_iff_knows]
    rcases List.mem_cons.1 member with rfl | operand
    · exact justified.knows
    · exact justified.admits.knows_of_mem operand
  case lookups =>
    intro key unknown
    obtain ⟨operand, member, notKnown⟩ := unknown
    exact sound.find?_of_unknown member (Manager.contains_eq_false_iff.1 notKnown)

/-- A disjunction with an unknown id is refused, and the one result that is remembered stays.
A choice by that id between equal branches is answered. -/
theorem contained_of_roomy :
    let session := Session.roomy.run [.negate ⟨14⟩]
    session.toManager.Reachable Call.isHonest ∧ session.contains ⟨10⟩ = false ∧
      session.memo.find? (.negation ⟨14⟩) = some ⟨9⟩ ∧
      (Call.apply .or ⟨14⟩ ⟨10⟩).outcome session = .failed (.violation (.unknownNode ⟨10⟩)) ∧
      ((Call.apply .or ⟨14⟩ ⟨10⟩).after session).Spares session.toManager ∧
      (Call.choose ⟨10⟩ ⟨14⟩ ⟨14⟩).outcome session = .answered (.ref ⟨14⟩) ∧
      session.table.Settles (.conditional ⟨10⟩ ⟨14⟩ ⟨14⟩) ⟨14⟩ := by
  intro session
  have reachable : session.toManager.Reachable Call.isHonest :=
    Session.reachable_roomy.run _ (by decide)
  have chosen : (Call.choose ⟨10⟩ ⟨14⟩ ⟨14⟩).outcome session = .answered (.ref ⟨14⟩) := by
    decide +kernel
  obtain ⟨operators, _, _⟩ := contained_of_reachable reachable
  obtain ⟨spares, _⟩ := operators (.apply .or ⟨14⟩ ⟨10⟩) _ rfl ⟨⟨10⟩, by decide, by decide +kernel⟩
  obtain ⟨_, ends⟩ := operators (.choose ⟨10⟩ ⟨14⟩ ⟨14⟩) _ rfl ⟨⟨10⟩, by decide, by decide +kernel⟩
  refine ⟨reachable, by decide +kernel, by decide +kernel, by decide +kernel, spares, chosen, ?_⟩
  rcases ends with ⟨_, _, _, refused⟩ | ⟨result, settles, answered⟩
  · rw [chosen] at refused
    cases refused
  · rw [chosen] at answered
    cases answered
    exact settles

end DecisionDiagram
