import DecisionDiagram.Proofs.Expansion
import DecisionDiagram.Proofs.Questions

/-!
# What is remembered never shows

A computation is transparent when on all sound sessions with the same store it acts like
one and the same computation on that store alone.  Operators are transparent also for
unknown operands: nothing is remembered about these, so every session refuses them alike.
-/

namespace DecisionDiagram

namespace SessionM

open UniqueTable (intern)

variable {α β : Type} {action : SessionM α} {table : UniqueTable} {depth : Nat} {key : Key}
variable {ref : Ref}

/-- On sound sessions with the given store the action acts like one computation on it. -/
def TransparentAt (table : UniqueTable) (action : SessionM α) : Prop :=
  ∃ reference : StoreM α, ∀ session : Session, session.table = table → session.Sound →
    Simulates action reference session

/-- What the action does to the store and what it answers depend on the store alone. -/
def Transparent (action : SessionM α) : Prop :=
  ∀ table, TransparentAt table action

/-! ## One store -/

theorem TransparentAt.of_wellFormed
    (transparent : table.WellFormed → TransparentAt table action) : TransparentAt table action := by
  by_cases wellFormed : table.WellFormed
  · exact transparent wellFormed
  · refine ⟨MonadExcept.throw .tooDeep, ?_⟩
    rintro session rfl sound
    exact absurd sound.wellFormed wellFormed

theorem TransparentAt.record {next : SessionM β} {event : Event}
    (rest : TransparentAt table next) : TransparentAt table (do
      SessionM.record event
      next) := by
  obtain ⟨reference, simulates⟩ := rest
  refine ⟨reference, ?_⟩
  intro session same sound
  exact .after (run_record event session) rfl (simulates _ same sound)

/-- Nothing is remembered about unknown operands. -/
theorem TransparentAt.lookUp_of_unknown {next : Option Ref → SessionM β}
    (unknown : ¬table.Admits key) (rest : TransparentAt table (next none)) :
    TransparentAt table (lookUp key >>= next) := by
  obtain ⟨reference, simulates⟩ := rest
  refine ⟨reference, ?_⟩
  rintro session rfl sound
  refine .lookUp sound (fun _ justified => absurd justified.admits unknown) ?_
  intro memo journal sound
  exact simulates _ rfl sound

theorem TransparentAt.query_node {next : Node → SessionM β}
    (rest : ∀ node, table.node? ref = some node → TransparentAt table (next node)) :
    TransparentAt table (query (·.node ref) >>= next) := by
  cases content : table.node? ref with
  | some node =>
      obtain ⟨reference, simulates⟩ := rest node content
      refine ⟨reference, ?_⟩
      rintro session rfl sound
      exact .after (run_query_node_of_some content) rfl (simulates session rfl sound)
  | none =>
      refine ⟨MonadExcept.throw (.violation (.unknownNode ref)), ?_⟩
      rintro session rfl sound
      exact .failed (run_query_of_error (by rw [Manager.node_eq, content])) rfl sound

theorem TransparentAt.query_var {next : Var → SessionM β}
    (rest : ∀ var, table.Knows ref → TransparentAt table (next var)) :
    TransparentAt table (query (·.var ref) >>= next) := by
  cases tested : table.var? ref with
  | some var =>
      obtain ⟨reference, simulates⟩ := rest var (UniqueTable.knows_iff_var?.2 ⟨var, tested⟩)
      refine ⟨reference, ?_⟩
      rintro session rfl sound
      exact .after (run_query_var_of_some tested) rfl (simulates session rfl sound)
  | none =>
      refine ⟨MonadExcept.throw (.violation (.unknownNode ref)), ?_⟩
      rintro session rfl sound
      exact .failed (run_query_var_of_none tested) rfl sound

/-! ## All stores -/

theorem Transparent.pure (answer : α) : Transparent (Pure.pure answer) :=
  fun _ => ⟨Pure.pure answer, fun _ _ sound => .pure answer sound⟩

theorem Transparent.bind {next : α → SessionM β} (first : Transparent action)
    (second : ∀ answer, Transparent (next answer)) : Transparent (action >>= next) := by
  intro table
  obtain ⟨reference, simulates⟩ := first table
  choose continuation continues using second
  refine ⟨reference >>= fun answer later => (continuation answer later).run later,
    fun session same sound => ?_⟩
  refine .bind (simulates session same sound) fun answer later _ laterSound => ?_
  exact (continues answer later.table later rfl laterSound).congr rfl

/-- A question about the store alone. -/
theorem Transparent.query {question : Manager → Except Failure α}
    (storeOnly : ∀ left right : Manager, left.table = right.table →
      question left = question right) : Transparent (SessionM.query question) := by
  intro table
  let sample : Manager := ⟨table, .empty 1 0 (by decide), ⟨0, 0⟩⟩
  refine ⟨ofExcept (question sample), ?_⟩
  rintro session rfl sound
  constructor
  · rw [run_query, storeOnly session.toManager sample rfl]
    cases question sample <;> rfl
  · rw [run_query]
    cases question session.toManager <;> exact sound

theorem Transparent.inspect {question : Manager → α}
    (storeOnly : ∀ left right : Manager, left.table = right.table →
      question left = question right) : Transparent (SessionM.inspect question) := by
  change Transparent (SessionM.query fun manager => .ok (question manager))
  exact .query fun left right same => congrArg Except.ok (storeOnly left right same)

theorem Transparent.onTable {action : StoreM α}
    (kept : ∀ table, finalState (action.run table) = table) :
    Transparent (SessionM.onTable action) := by
  refine fun _ => ⟨action, fun session _ sound => ?_⟩
  have same := kept session.table
  constructor
  · rw [run_onTable]
    cases action.run session.table <;> rfl
  · rw [run_onTable]
    cases result : action.run session.table <;> rw [result] at same <;> cases same <;> exact sound

theorem Transparent.foldlM {γ : Type} {step : β → γ → SessionM β}
    (each : ∀ state item, Transparent (step state item)) (items : List γ) (start : β) :
    Transparent (items.foldlM step start) := by
  induction items generalizing start with
  | nil => exact .pure start
  | cons item rest ih =>
      rw [List.foldlM_cons]
      exact .bind (each start item) fun state => ih state

theorem Transparent.make (var : Var) (low high : Ref) :
    Transparent (DecisionDiagram.make var low high) :=
  fun _ => ⟨UniqueTable.make var low high, fun _ _ sound => .make var low high sound⟩

/-! ## Operators -/

theorem Transparent.negateWithin (enough : nestingLimit ≤ depth + 1) (operand : Ref) :
    Transparent (DecisionDiagram.negateWithin depth operand) := by
  intro table
  apply TransparentAt.of_wellFormed
  intro wellFormed
  by_cases admits : table.Admits (.negation operand)
  case pos =>
    obtain ⟨diagram, denotes⟩ := wellFormed.exists_denotes admits
    refine ⟨intern diagram, ?_⟩
    rintro session rfl sound
    exact .negateWithin sound denotes (admits.first.fits enough)
  case neg =>
    obtain ⟨depth, rfl⟩ : ∃ rest, depth = rest + 1 :=
      ⟨depth - 1, by unfold nestingLimit at enough; omega⟩
    have unknown : ¬table.Knows operand := fun known =>
      admits ⟨known, table.knows_ofBool false, table.knows_ofBool false⟩
    simp only [DecisionDiagram.negateWithin]
    apply TransparentAt.record
    cases constant : operand.constant? with
    | some value =>
        rw [Ref.eq_ofBool_of_constant? constant] at unknown
        exact absurd (table.knows_ofBool value) unknown
    | none =>
        exact .lookUp_of_unknown admits
          (.query_node fun node content => absurd (.inr ⟨node, content⟩) unknown)

theorem Transparent.follow (enough : nestingLimit ≤ depth + 1) (shortcut : Shortcut) :
    Transparent (SessionM.follow depth shortcut) := by
  cases shortcut with
  | is result => exact .pure result
  | negationOf operand => exact .negateWithin enough operand

theorem Transparent.applyWithin (enough : nestingLimit ≤ depth) (op : BinaryOp) (left right : Ref) :
    Transparent (DecisionDiagram.applyWithin depth op left right) := by
  intro table
  apply TransparentAt.of_wellFormed
  intro wellFormed
  by_cases admits : table.Admits (.binary op left right)
  case pos =>
    obtain ⟨diagram, denotes⟩ := wellFormed.exists_denotes admits
    refine ⟨intern diagram, ?_⟩
    rintro session rfl sound
    exact .applyWithin sound denotes (admits.first.fits enough) (admits.second.fits enough)
  case neg =>
    obtain ⟨depth, rfl⟩ : ∃ rest, depth = rest + 1 :=
      ⟨depth - 1, by unfold nestingLimit at enough; omega⟩
    simp only [DecisionDiagram.applyWithin]
    cases found : op.shortcut? left right with
    | some shortcut =>
        have followed := Transparent.follow enough shortcut table
        cases shortcut <;> exact followed
    | none =>
        obtain ⟨first, second, arranged, unknown⟩ : ∃ first second,
            op.arrange left right = (first, second) ∧
              ¬table.Admits (.binary op first second) := by
          rcases op.arrange_cases left right with same | ⟨_, swapped⟩
          · exact ⟨left, right, same, admits⟩
          · exact ⟨right, left, swapped, fun both => admits ⟨both.second, both.first, both.third⟩⟩
        simp only [arranged]
        exact .lookUp_of_unknown unknown
          (.query_var fun _ firstKnown => .query_var fun _ secondKnown =>
            absurd ⟨firstKnown, secondKnown, table.knows_ofBool false⟩ unknown)

theorem Transparent.chooseWithin (enough : nestingLimit ≤ depth) (condition yes no : Ref) :
    Transparent (DecisionDiagram.chooseWithin depth condition yes no) := by
  intro table
  apply TransparentAt.of_wellFormed
  intro wellFormed
  by_cases admits : table.Admits (.conditional condition yes no)
  case pos =>
    obtain ⟨diagram, denotes⟩ := wellFormed.exists_denotes admits
    refine ⟨intern diagram, ?_⟩
    rintro session rfl sound
    exact .chooseWithin sound denotes (admits.first.fits enough) (admits.second.fits enough)
      (admits.third.fits enough)
  case neg =>
    obtain ⟨depth, rfl⟩ : ∃ rest, depth = rest + 1 :=
      ⟨depth - 1, by unfold nestingLimit at enough; omega⟩
    simp only [DecisionDiagram.chooseWithin]
    apply TransparentAt.record
    cases found : chooseShortcut? condition yes no with
    | some shortcut =>
        have followed := Transparent.follow enough shortcut table
        cases shortcut <;> exact followed
    | none =>
        exact .lookUp_of_unknown admits
          (.query_var fun _ conditionKnown => .query_var fun _ yesKnown =>
            .query_var fun _ noKnown => absurd ⟨conditionKnown, yesKnown, noKnown⟩ admits)

theorem Transparent.apply (op : BinaryOp) (left right : Ref) :
    Transparent (DecisionDiagram.apply op left right) :=
  fun table => .record (Transparent.applyWithin (Nat.le_refl _) op left right table)

end SessionM
end DecisionDiagram
