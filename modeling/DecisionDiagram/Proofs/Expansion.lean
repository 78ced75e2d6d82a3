import DecisionDiagram.Proofs.Simulation

/-!
# Operators on a sound session

On known operands every operator simulates the storing of its result's diagram, whatever
is remembered.  An expansion that recalls nothing stores the result by way of its
cofactors; a result that is recalled is in use with all of its parts, so storing it again
would have changed nothing.
-/

namespace DecisionDiagram

open UniqueTable (intern)

namespace UniqueTable

variable {table later : UniqueTable} {ref : Ref} {var : Var} {levels : Nat} {key : Key}
variable {diagram : Diagram}

/-! ## Depth -/

/-- The id is known, and so many levels of nesting are enough for its paths. -/
def Fits (table : UniqueTable) (levels : Nat) (ref : Ref) : Prop :=
  ∃ var, table.var? ref = some var ∧ nestingLimit ≤ levels + var.toNat

theorem Fits.knows (fits : table.Fits levels ref) : table.Knows ref := by
  obtain ⟨var, tested, _⟩ := fits
  exact knows_iff_var?.2 ⟨var, tested⟩

theorem Fits.one_lt (fits : table.Fits levels ref) : 1 < levels := by
  obtain ⟨var, _, enough⟩ := fits
  have bound := var.toNat_lt
  simp only [nestingLimit] at enough
  omega

theorem Fits.extend (fits : table.Fits levels ref) (grown : later.Extends table) :
    later.Fits levels ref := by
  obtain ⟨var, tested, enough⟩ := fits
  exact ⟨var, grown.var? tested, enough⟩

/-- Below a test one level less is enough. -/
theorem Follows.fits (follows : table.Follows ref var)
    (enough : nestingLimit ≤ levels + 1 + var.toNat) : table.Fits levels ref := by
  obtain ⟨next, tested, before⟩ := follows
  rw [UInt32.lt_iff_toNat_lt] at before
  exact ⟨next, tested, by omega⟩

/-- If levels are enough below two tests, they are enough below the earlier one. -/
theorem enough_of_min {left right : Var} (leftEnough : nestingLimit ≤ levels + left.toNat)
    (rightEnough : nestingLimit ≤ levels + right.toNat) :
    nestingLimit ≤ levels + (min left right).toNat := by
  rcases Std.min_eq_or (a := left) (b := right) with same | same
  · rwa [same]
  · rwa [same]

theorem Fits.ofBool (fits : table.Fits levels ref) (value : Bool) :
    table.Fits levels (.ofBool value) := by
  obtain ⟨var, _, enough⟩ := fits
  have last := UInt32.le_iff_toNat_le.1 (le_terminalVar var)
  exact ⟨terminalVar, table.var?_ofBool value, by omega⟩

theorem Fits.of_shortcut? {op : BinaryOp} {left right : Ref} {shortcut : Shortcut}
    (leftFits : table.Fits levels left) (rightFits : table.Fits levels right)
    (found : op.shortcut? left right = some shortcut) : table.Fits levels shortcut.target := by
  rcases BinaryOp.target_of_shortcut? found with target | target | ⟨value, target⟩
  · rwa [target]
  · rwa [target]
  · rw [target]
    exact leftFits.ofBool value

theorem Fits.of_chooseShortcut? {condition yes no : Ref} {shortcut : Shortcut}
    (conditionFits : table.Fits levels condition) (yesFits : table.Fits levels yes)
    (noFits : table.Fits levels no) (found : chooseShortcut? condition yes no = some shortcut) :
    table.Fits levels shortcut.target := by
  rcases target_of_chooseShortcut? found with target | target | target
  · rwa [target]
  · rwa [target]
  · rwa [target]

theorem Knows.fits (known : table.Knows ref) (enough : nestingLimit ≤ levels) :
    table.Fits levels ref := by
  obtain ⟨var, tested⟩ := knows_iff_var?.1 known
  exact ⟨var, tested, Nat.le_trans enough (Nat.le_add_right levels var.toNat)⟩

/-! ## Equal denotations -/

/-- A known id with the function asked for is the right result. -/
theorem WellFormed.represents_of_denotes (wellFormed : table.WellFormed)
    (denotes : table.Denotes key diagram) (known : table.Knows ref)
    (same : ∀ assignment, table.function ref assignment = table.asked key assignment) :
    table.Represents ref diagram :=
  wellFormed.represents_of_function_eq known denotes.canonical
    ((funext same).trans denotes.eval_eq.symm)

/-- A key that asks for the negation of a known id may be replaced by that negation. -/
theorem Denotes.negation (denotes : table.Denotes key diagram) (known : table.Knows ref)
    (same : ∀ assignment, (!table.function ref assignment) = table.asked key assignment) :
    table.Denotes (.negation ref) diagram := by
  refine ⟨⟨known, table.knows_ofBool false, table.knows_ofBool false⟩, denotes.canonical, ?_⟩
  rw [denotes.eval_eq]
  exact (funext same).symm

/-- The operands of a commutative connective may be exchanged. -/
theorem Denotes.swap {op : BinaryOp} {left right : Ref}
    (denotes : table.Denotes (.binary op left right) diagram)
    (commutative : op.isCommutative = true) :
    table.Denotes (.binary op right left) diagram := by
  obtain ⟨⟨leftKnown, rightKnown, padding⟩, canonical, same⟩ := denotes
  refine ⟨⟨rightKnown, leftKnown, padding⟩, canonical, ?_⟩
  rw [same]
  exact funext fun _ => BinaryOp.isCommutative_iff.1 commutative _ _

theorem Denotes.exists_arranged {op : BinaryOp} {left right : Ref}
    (denotes : table.Denotes (.binary op left right) diagram) (leftFits : table.Fits levels left)
    (rightFits : table.Fits levels right)
    (notConstant : left.constant? = none ∧ right.constant? = none) :
    ∃ first second, op.arrange left right = (first, second) ∧
      table.Denotes (.binary op first second) diagram ∧ table.Fits levels first ∧
        table.Fits levels second ∧ first.constant? = none := by
  rcases op.arrange_cases left right with same | ⟨commutative, swapped⟩
  · exact ⟨left, right, same, denotes, leftFits, rightFits, notConstant.1⟩
  · exact ⟨right, left, swapped, denotes.swap commutative, rightFits, leftFits, notConstant.2⟩

theorem WellFormed.respectful (wellFormed : table.WellFormed) (assignment : Assignment) :
    Respectful fun ref => table.function ref assignment :=
  ⟨congrFun (wellFormed.function_ofBool false) assignment,
    congrFun (wellFormed.function_ofBool true) assignment⟩

end UniqueTable

/-! ## Branches by id -/

/-- A known id without a constant value is in use. -/
theorem UniqueTable.Knows.exists_node? {table : UniqueTable} {ref : Ref}
    (known : table.Knows ref) (notConstant : ref.constant? = none) :
    ∃ node, table.node? ref = some node := by
  rcases known.cases with ⟨value, rfl⟩ | published
  · simp at notConstant
  · exact published

theorem UniqueTable.WellFormed.lt_terminalVar_of_le {table : UniqueTable} {ref : Ref}
    {var next : Var} (wellFormed : table.WellFormed) (tested : table.var? ref = some next)
    (notConstant : ref.constant? = none) (above : var ≤ next) : var < terminalVar := by
  obtain ⟨node, content⟩ := (knows_iff_var?.2 ⟨next, tested⟩).exists_node? notConstant
  rw [var?_of_node? content] at tested
  cases tested
  exact UInt32.lt_of_le_of_lt above
    (wellFormed.proper_of_node? content).low_follows.lt_terminalVar

/-- Constants are their own branches. -/
theorem UniqueTable.splits_ofBool {var : Var} (table : UniqueTable) (value : Bool)
    (usable : var < terminalVar) :
    table.Splits (.ofBool value) var (.ofBool value) (.ofBool value) :=
  Follows.splits ⟨terminalVar, table.var?_ofBool value, usable⟩

/-- A known id splits by every usable variable that is not tested below its top. -/
theorem Manager.exists_cofactors {manager : Manager} {ref : Ref} {var next : Var}
    (wellFormed : manager.table.WellFormed) (tested : manager.table.var? ref = some next)
    (above : var ≤ next) (usable : var < terminalVar) :
    ∃ low high, manager.cofactors ref var = .ok (low, high) ∧
      manager.table.Splits ref var low high := by
  by_cases strictly : var < next
  · have follows : manager.table.Follows ref var := ⟨next, tested, strictly⟩
    exact ⟨ref, ref, cofactors_of_follows follows, follows.splits⟩
  · obtain rfl : var = next := UInt32.le_antisymm above (UInt32.not_lt.1 strictly)
    obtain ⟨node, content, rfl⟩ := UniqueTable.exists_node?_of_var? tested (UInt32.ne_of_lt usable)
    exact ⟨node.low, node.high, cofactors_of_node? content, wellFormed.splits_of_node? content⟩

namespace SessionM

variable {session : Session} {op : Operator} {depth : Nat} {key : Key} {var : Var}
variable {operand left right condition yes no ref : Ref} {diagram : Diagram}

/-! ## Expansion -/

/-- A right result may be remembered. -/
theorem Simulates.conclude (sound : session.Sound) (justified : session.table.Justifies key ref) :
    Simulates (do
      remember key ref
      Pure.pure ref) (Pure.pure ref) session :=
  .after (run_remember key ref session) rfl (.pure ref (sound.remember justified))

/-- Expanding an operator by a variable: what remains is to work out the branches, and to
finish with a right result. -/
theorem Simulates.operate {first first0 first1 second second0 second1 third third0 third1 : Ref}
    {lowAction highAction : SessionM Ref} {finish : Ref → SessionM Ref} (sound : session.Sound)
    (denotes : session.table.Denotes ⟨op, first, second, third⟩ diagram)
    (firstSplits : session.table.Splits first var first0 first1)
    (secondSplits : session.table.Splits second var second0 second1)
    (thirdSplits : session.table.Splits third var third0 third1)
    (lowSimulates : ∀ branch, session.table.Denotes ⟨op, first0, second0, third0⟩ branch →
      Simulates lowAction (intern branch) session)
    (highSimulates : ∀ later : Session, later.Sound → later.table.Extends session.table →
      ∀ branch, later.table.Denotes ⟨op, first1, second1, third1⟩ branch →
        Simulates highAction (intern branch) later)
    (finished : ∀ (ref : Ref) (later : Session), later.Sound →
      later.table.Justifies ⟨op, first, second, third⟩ ref →
        Simulates (finish ref) (Pure.pure ref) later) :
    Simulates (do
      let low ← lowAction
      let high ← highAction
      let result ← DecisionDiagram.make var low high
      finish result) (intern diagram) session := by
  have wellFormed := sound.wellFormed
  obtain ⟨above, lowDenotes, highDenotes⟩ :=
    wellFormed.denotes_cofactor denotes firstSplits secondSplits thirdSplits
  refine .expand sound denotes.canonical above firstSplits.low_follows.lt_terminalVar
    (lowSimulates _ lowDenotes) ?_ ?_
  · intro later laterSound grown
    exact highSimulates later laterSound grown _
      (wellFormed.denotes_extend laterSound.wellFormed grown highDenotes)
  · intro ref later laterSound grown represents
    have laterDenotes := wellFormed.denotes_extend laterSound.wellFormed grown denotes
    exact finished ref later laterSound
      (laterSound.wellFormed.justifies_of_represents laterDenotes represents)

/-- A result that is recalled need not be stored, so only the expansion is left to show. -/
theorem Simulates.lookUp_of_denotes {next : Option Ref → SessionM Ref} {event : Ref → Event}
    (sound : session.Sound) (denotes : session.table.Denotes key diagram)
    (hit : ∀ result, next (some result) = do
      record (event result)
      Pure.pure result)
    (miss : ∀ memo journal, Manager.Sound { session.toManager with memo := memo } →
      Simulates (next none) (intern diagram)
        { session with memo := memo, journal := journal }) :
    Simulates (SessionM.lookUp key >>= next) (intern diagram) session := by
  refine .lookUp sound ?_ miss
  intro result justified memo journal laterSound
  have represents := sound.wellFormed.represents_of_justifies justified denotes
  rw [hit]
  exact .after (run_record _ _) rfl (.of_represents laterSound represents)

/-! ## Negation -/

theorem Simulates.negateWithin (sound : session.Sound)
    (denotes : session.table.Denotes (.negation operand) diagram)
    (fits : session.table.Fits (depth + 1) operand) :
    Simulates (DecisionDiagram.negateWithin depth operand) (intern diagram) session := by
  induction depth generalizing session operand diagram with
  | zero => exact absurd fits.one_lt (by decide)
  | succ depth ih =>
      simp only [DecisionDiagram.negateWithin]
      apply Simulates.after (run_record _ _) rfl
      have wellFormed := sound.wellFormed
      cases constant : operand.constant? with
      | some value =>
          obtain rfl := Ref.eq_ofBool_of_constant? constant
          refine .of_represents sound
            (wellFormed.represents_of_denotes denotes (session.table.knows_ofBool _) ?_)
          intro assignment
          simp only [UniqueTable.asked, Key.negation, Operator.eval, wellFormed.function_ofBool]
      | none =>
          refine .lookUp_of_denotes sound denotes (fun _ => rfl) ?_
          intro memo journal sound
          obtain ⟨node, content⟩ := fits.knows.exists_node? constant
          refine .after (run_query_node_of_some content) rfl ?_
          have splits := wellFormed.splits_of_node? content
          have padding := session.table.splits_ofBool false splits.low_follows.lt_terminalVar
          obtain ⟨top, tested, enough⟩ := fits
          obtain rfl : node.var = top := by
            rw [UniqueTable.var?_of_node? content] at tested
            exact Option.some.inj tested
          refine .operate sound denotes splits padding padding ?low ?high ?finish
          case low =>
            intro branch branchDenotes
            exact ih sound branchDenotes (splits.low_follows.fits enough)
          case high =>
            intro later laterSound grown branch branchDenotes
            exact ih laterSound branchDenotes ((splits.high_follows.fits enough).extend grown)
          case finish =>
            intro result later laterSound justified
            exact .conclude laterSound justified

/-! ## Shortcuts -/

/-- Following a shortcut, with at most so many levels for a negation. -/
def follow (depth : Nat) : Shortcut → SessionM Ref
  | .is result => Pure.pure result
  | .negationOf operand => DecisionDiagram.negateWithin depth operand

theorem Simulates.follow {shortcut : Shortcut} (sound : session.Sound)
    (denotes : session.table.Denotes key diagram)
    (fits : session.table.Fits (depth + 1) shortcut.target)
    (same : ∀ assignment, shortcut.eval (fun ref => session.table.function ref assignment) =
      session.table.asked key assignment) :
    Simulates (SessionM.follow depth shortcut) (intern diagram) session := by
  cases shortcut with
  | is result =>
      exact .of_represents sound (sound.wellFormed.represents_of_denotes denotes fits.knows same)
  | negationOf operand => exact .negateWithin sound (denotes.negation fits.knows same) fits

/-! ## Binary connectives -/

theorem Simulates.applyWithin {op : BinaryOp} (sound : session.Sound)
    (denotes : session.table.Denotes (.binary op left right) diagram)
    (leftFits : session.table.Fits depth left) (rightFits : session.table.Fits depth right) :
    Simulates (DecisionDiagram.applyWithin depth op left right) (intern diagram) session := by
  induction depth generalizing session left right diagram with
  | zero => exact absurd leftFits.one_lt (by decide)
  | succ depth ih =>
      simp only [DecisionDiagram.applyWithin]
      have wellFormed := sound.wellFormed
      cases found : op.shortcut? left right with
      | some shortcut =>
          have fits := leftFits.of_shortcut? rightFits found
          have followed := Simulates.follow sound denotes fits fun assignment =>
            BinaryOp.eval_of_shortcut? (wellFormed.respectful assignment) found
          cases shortcut <;> exact followed
      | none =>
          obtain ⟨first, second, arranged, denotes, firstFits, secondFits, constant⟩ :=
            denotes.exists_arranged leftFits rightFits
              (BinaryOp.constant?_of_shortcut?_eq_none found)
          simp only [arranged]
          refine .lookUp_of_denotes sound denotes (fun _ => rfl) ?_
          intro memo journal sound
          obtain ⟨firstVar, firstTested, firstEnough⟩ := firstFits
          obtain ⟨secondVar, secondTested, secondEnough⟩ := secondFits
          have enough := UniqueTable.enough_of_min firstEnough secondEnough
          have usable : min firstVar secondVar < terminalVar :=
            wellFormed.lt_terminalVar_of_le firstTested constant Std.min_le_left
          obtain ⟨first0, first1, firstBranches, firstSplits⟩ :=
            Manager.exists_cofactors wellFormed firstTested Std.min_le_left usable
          obtain ⟨second0, second1, secondBranches, secondSplits⟩ :=
            Manager.exists_cofactors wellFormed secondTested Std.min_le_right usable
          refine .after (run_query_var_of_some firstTested) rfl ?_
          refine .after (run_query_var_of_some secondTested) rfl ?_
          refine .after (run_query_of_ok firstBranches) rfl ?_
          refine .after (run_query_of_ok secondBranches) rfl ?_
          refine .operate sound denotes firstSplits secondSplits
            (session.table.splits_ofBool false usable) ?low ?high ?finish
          case low =>
            intro branch branchDenotes
            exact ih sound branchDenotes (firstSplits.low_follows.fits enough)
              (secondSplits.low_follows.fits enough)
          case high =>
            intro later laterSound grown branch branchDenotes
            exact ih laterSound branchDenotes
              ((firstSplits.high_follows.fits enough).extend grown)
              ((secondSplits.high_follows.fits enough).extend grown)
          case finish =>
            intro result later laterSound justified
            exact .after (run_record _ _) rfl (.conclude laterSound justified)

/-! ## If-then-else -/

theorem Simulates.chooseWithin (sound : session.Sound)
    (denotes : session.table.Denotes (.conditional condition yes no) diagram)
    (conditionFits : session.table.Fits depth condition) (yesFits : session.table.Fits depth yes)
    (noFits : session.table.Fits depth no) :
    Simulates (DecisionDiagram.chooseWithin depth condition yes no) (intern diagram) session := by
  induction depth generalizing session condition yes no diagram with
  | zero => exact absurd conditionFits.one_lt (by decide)
  | succ depth ih =>
      simp only [DecisionDiagram.chooseWithin]
      apply Simulates.after (run_record _ _) rfl
      have wellFormed := sound.wellFormed
      cases found : chooseShortcut? condition yes no with
      | some shortcut =>
          have fits := conditionFits.of_chooseShortcut? yesFits noFits found
          have followed : Simulates (SessionM.follow depth shortcut) (intern diagram)
              { session with journal := session.journal.record (.choose condition yes no) } :=
            .follow sound denotes fits fun assignment =>
              eval_of_chooseShortcut? (wellFormed.respectful assignment) found
          cases shortcut <;> exact followed
      | none =>
          have constant := constant?_of_chooseShortcut?_eq_none found
          refine .lookUp_of_denotes sound denotes (fun _ => rfl) ?_
          intro memo journal sound
          obtain ⟨conditionVar, conditionTested, conditionEnough⟩ := conditionFits
          obtain ⟨yesVar, yesTested, yesEnough⟩ := yesFits
          obtain ⟨noVar, noTested, noEnough⟩ := noFits
          have enough := UniqueTable.enough_of_min
            (UniqueTable.enough_of_min conditionEnough yesEnough) noEnough
          have conditionAbove : min (min conditionVar yesVar) noVar ≤ conditionVar :=
            UInt32.le_trans Std.min_le_left Std.min_le_left
          have yesAbove : min (min conditionVar yesVar) noVar ≤ yesVar :=
            UInt32.le_trans Std.min_le_left Std.min_le_right
          have usable := wellFormed.lt_terminalVar_of_le conditionTested constant conditionAbove
          obtain ⟨condition0, condition1, conditionBranches, conditionSplits⟩ :=
            Manager.exists_cofactors wellFormed conditionTested conditionAbove usable
          obtain ⟨yes0, yes1, yesBranches, yesSplits⟩ :=
            Manager.exists_cofactors wellFormed yesTested yesAbove usable
          obtain ⟨no0, no1, noBranches, noSplits⟩ :=
            Manager.exists_cofactors wellFormed noTested Std.min_le_right usable
          refine .after (run_query_var_of_some conditionTested) rfl ?_
          refine .after (run_query_var_of_some yesTested) rfl ?_
          refine .after (run_query_var_of_some noTested) rfl ?_
          refine .after (run_query_of_ok conditionBranches) rfl ?_
          refine .after (run_query_of_ok yesBranches) rfl ?_
          refine .after (run_query_of_ok noBranches) rfl ?_
          refine .operate sound denotes conditionSplits yesSplits noSplits ?low ?high ?finish
          case low =>
            intro branch branchDenotes
            exact ih sound branchDenotes (conditionSplits.low_follows.fits enough)
              (yesSplits.low_follows.fits enough) (noSplits.low_follows.fits enough)
          case high =>
            intro later laterSound grown branch branchDenotes
            exact ih laterSound branchDenotes
              ((conditionSplits.high_follows.fits enough).extend grown)
              ((yesSplits.high_follows.fits enough).extend grown)
              ((noSplits.high_follows.fits enough).extend grown)
          case finish =>
            intro result later laterSound justified
            exact .conclude laterSound justified

/-! ## Operators -/

theorem Simulates.negate (sound : session.Sound)
    (denotes : session.table.Denotes (.negation operand) diagram) :
    Simulates (DecisionDiagram.negate operand) (intern diagram) session :=
  .negateWithin sound denotes (denotes.admits.first.fits (Nat.le_succ _))

theorem Simulates.apply {op : BinaryOp} (sound : session.Sound)
    (denotes : session.table.Denotes (.binary op left right) diagram) :
    Simulates (DecisionDiagram.apply op left right) (intern diagram) session := by
  refine .after (run_record _ session) rfl ?_
  exact .applyWithin sound denotes (denotes.admits.first.fits (Nat.le_refl _))
    (denotes.admits.second.fits (Nat.le_refl _))

theorem Simulates.choose (sound : session.Sound)
    (denotes : session.table.Denotes (.conditional condition yes no) diagram) :
    Simulates (DecisionDiagram.choose condition yes no) (intern diagram) session :=
  .chooseWithin sound denotes (denotes.admits.first.fits (Nat.le_refl _))
    (denotes.admits.second.fits (Nat.le_refl _)) (denotes.admits.third.fits (Nat.le_refl _))

end SessionM
end DecisionDiagram
