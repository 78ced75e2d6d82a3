import DecisionDiagram.Proofs.Expansion

/-!
# Operands that denote nothing

An operator whose operands are not all known either takes a shortcut, which does not look at
the store, or names an unknown operand and stops.  Nothing is remembered about such
operands, so no lookup helps them along, and nothing is stored for them.
-/

namespace DecisionDiagram

namespace UniqueTable

variable {table : UniqueTable} {ref : Ref}

theorem node?_eq_none_of_unknown (unknown : ¬table.Knows ref) : table.node? ref = none := by
  cases content : table.node? ref with
  | none => rfl
  | some node => exact absurd (.inr ⟨node, content⟩) unknown

theorem constant?_eq_none_of_unknown (unknown : ¬table.Knows ref) : ref.constant? = none := by
  cases constant : ref.constant? with
  | none => rfl
  | some value =>
      rw [Ref.eq_ofBool_of_constant? constant] at unknown
      exact absurd (table.knows_ofBool value) unknown

end UniqueTable

namespace SessionM

variable {α : Type} {session : Session} {action : SessionM α} {depth : Nat} {key : Key}
variable {op : BinaryOp} {operand left right condition yes no ref : Ref}

/-- The action looks a key up in vain and then stops at one of its operands, which is
unknown.  The store and what is remembered stay as they are. -/
def Refuses (action : SessionM α) (key : Key) (session : Session) : Prop :=
  ∃ ref ∈ key.operands, ¬session.table.Knows ref ∧ ∃ journal,
    action.run session = .error (.violation (.unknownNode ref))
      { session with memo := session.memo.count key, journal := journal }

/-- Only keys with known operands are remembered. -/
theorem run_lookUp_of_unknown (sound : session.Sound) (unknown : ¬session.table.Admits key) :
    ∃ journal, (lookUp key).run session =
      .ok none { session with memo := session.memo.count key, journal := journal } := by
  obtain ⟨journal, run⟩ := run_lookUp key session
  cases found : session.memo.find? key with
  | none => exact ⟨journal, by rw [run, found]⟩
  | some result => exact absurd (sound.justifies found).admits unknown

theorem Refuses.record {event : Event}
    (refuses : ∀ recorded : Session, recorded.toManager = session.toManager →
      Refuses action key recorded) :
    Refuses (do
      SessionM.record event
      action) key session := by
  obtain ⟨ref, member, unknown, journal, run⟩ :=
    refuses { session with journal := session.journal.record event } rfl
  refine ⟨ref, member, unknown, journal, ?_⟩
  rw [run_bind_of_ok (run_record event session), run]

/-- A lookup in vain is followed by the question that an unknown operand fails. -/
theorem Refuses.lookUp {next : Option Ref → SessionM α} (sound : session.Sound)
    (unknown : ¬session.table.Admits key)
    (stops : ∀ later : Session, later.table = session.table →
      ∃ ref ∈ key.operands, ¬session.table.Knows ref ∧
        (next none).run later = .error (.violation (.unknownNode ref)) later) :
    Refuses (SessionM.lookUp key >>= next) key session := by
  obtain ⟨journal, run⟩ := run_lookUp_of_unknown sound unknown
  obtain ⟨ref, member, notKnown, stopped⟩ := stops
    { session with memo := session.memo.count key, journal := journal } rfl
  exact ⟨ref, member, notKnown, journal, by rw [run_bind_of_ok run, stopped]⟩

/-- Asking for the variable of an operand stops at an unknown one, and else goes on. -/
theorem run_query_var_cases {next : Var → SessionM α} (ref : Ref) (session : Session) :
    (¬session.table.Knows ref ∧ (query (·.var ref) >>= next).run session =
        .error (.violation (.unknownNode ref)) session) ∨
      (session.table.Knows ref ∧ ∃ var, (query (·.var ref) >>= next).run session =
        (next var).run session) := by
  cases tested : session.table.var? ref with
  | none =>
      refine .inl ⟨fun known => ?_, run_bind_of_error (run_query_var_of_none tested)⟩
      obtain ⟨var, found⟩ := UniqueTable.knows_iff_var?.1 known
      simp [tested] at found
  | some var =>
      exact .inr ⟨UniqueTable.knows_iff_var?.2 ⟨var, tested⟩, var,
        run_bind_of_ok (run_query_var_of_some tested)⟩

/-! ## Operators -/

theorem Refuses.negateWithin (sound : session.Sound) (unknown : ¬session.table.Knows operand) :
    Refuses (DecisionDiagram.negateWithin (depth + 1) operand) (.negation operand) session := by
  simp only [DecisionDiagram.negateWithin, UniqueTable.constant?_eq_none_of_unknown unknown]
  apply Refuses.record
  intro recorded unchanged
  rw [← unchanged] at sound unknown
  apply Refuses.lookUp sound fun admits => unknown admits.first
  intro later same
  refine ⟨operand, by simp [Key.operands, Key.negation, Operator.arity], unknown, ?_⟩
  apply run_bind_of_error
  apply run_query_of_error
  rw [Manager.node_eq, same, UniqueTable.node?_eq_none_of_unknown unknown]

theorem Refuses.applyWithin (sound : session.Sound) (missing : op.shortcut? left right = none)
    (unknown : ¬session.table.Admits (.binary op left right)) :
    ∃ first second, op.arrange left right = (first, second) ∧
      Refuses (DecisionDiagram.applyWithin (depth + 1) op left right) (.binary op first second)
        session := by
  obtain ⟨first, second, arranged, unknown⟩ : ∃ first second,
      op.arrange left right = (first, second) ∧
        ¬session.table.Admits (.binary op first second) := by
    rcases op.arrange_cases left right with same | ⟨_, swapped⟩
    · exact ⟨left, right, same, unknown⟩
    · exact ⟨right, left, swapped, fun both => unknown ⟨both.second, both.first, both.third⟩⟩
  refine ⟨first, second, arranged, ?_⟩
  simp only [DecisionDiagram.applyWithin, missing, arranged]
  apply Refuses.lookUp sound unknown
  intro later same
  rw [← same] at unknown ⊢
  have operands : (Key.binary op first second).operands = [first, second] := rfl
  rw [operands]
  rcases run_query_var_cases first later with ⟨notKnown, run⟩ | ⟨firstKnown, _, run⟩
  · exact ⟨first, by simp, notKnown, run⟩
  · rcases run_query_var_cases second later with ⟨notKnown, next⟩ | ⟨secondKnown, _, _⟩
    · exact ⟨second, by simp, notKnown, run.trans next⟩
    · exact absurd ⟨firstKnown, secondKnown, later.table.knows_ofBool false⟩ unknown

theorem Refuses.chooseWithin (sound : session.Sound)
    (missing : chooseShortcut? condition yes no = none)
    (unknown : ¬session.table.Admits (.conditional condition yes no)) :
    Refuses (DecisionDiagram.chooseWithin (depth + 1) condition yes no)
      (.conditional condition yes no) session := by
  simp only [DecisionDiagram.chooseWithin, missing]
  apply Refuses.record
  intro recorded unchanged
  rw [← unchanged] at sound unknown
  apply Refuses.lookUp sound unknown
  intro later same
  rw [← same] at unknown ⊢
  have operands : (Key.conditional condition yes no).operands = [condition, yes, no] := rfl
  rw [operands]
  rcases run_query_var_cases condition later with ⟨notKnown, run⟩ | ⟨conditionKnown, _, run⟩
  · exact ⟨condition, by simp, notKnown, run⟩
  rcases run_query_var_cases yes later with ⟨notKnown, next⟩ | ⟨yesKnown, _, next⟩
  · exact ⟨yes, by simp, notKnown, run.trans next⟩
  rcases run_query_var_cases no later with ⟨notKnown, last⟩ | ⟨noKnown, _, _⟩
  · exact ⟨no, by simp, notKnown, run.trans (next.trans last)⟩
  · exact absurd ⟨conditionKnown, yesKnown, noKnown⟩ unknown

end SessionM
end DecisionDiagram
