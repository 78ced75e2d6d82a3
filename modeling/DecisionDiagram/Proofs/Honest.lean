import DecisionDiagram.Proofs.Reachable
import DecisionDiagram.Proofs.Transparency

/-!
# Honest calls

Honest calls leave it to the operators what is remembered, so sound managers stay sound.
Plain calls, which are most of them, are transparent; the others, which ask of the computed
table or of the budget, leave the store as it is.
-/

namespace DecisionDiagram

/-- An honest call that neither concerns the computed table nor tells of it or of the
budget. -/
def Call.isPlain {ρ : Type} : Call ρ → Bool
  | .table (.insert ..) => false
  | .memo _ => false
  | .describe => false
  | .budget => false
  | _ => true

/-! ## Honest calls -/

namespace SessionM

theorem Transparent.perform {call : Call Ref} (plain : call.isPlain = true) :
    Transparent call.perform := by
  cases call with
  | constant | isConstant | isTerminal => exact .pure _
  | make | makeVar | makeNegatedVar => exact .bind (.make _ _ _) fun _ => .pure _
  | negate operand =>
      exact .bind (.negateWithin (Nat.le_succ _) operand) fun _ => .pure _
  | apply op left right => exact .bind (.apply op left right) fun _ => .pure _
  | choose condition yes no =>
      exact .bind (.chooseWithin (Nat.le_refl _) condition yes no) fun _ => .pure _
  | conjoin operands | disjoin operands =>
      refine .bind (fun table => .record ?_) fun _ => .pure _
      exact Transparent.foldlM (fun state item => .apply _ state item) operands _ table
  | cofactors ref var =>
      exact .bind (.query fun _ _ same => Manager.cofactors_congr same ref var) fun _ => .pure _
  | descendants roots =>
      exact .bind (.query fun _ _ same => Manager.descendants_congr same roots) fun _ => .pure _
  | size root =>
      refine .bind (.query fun left right same => ?_) fun _ => .pure _
      simp only [Manager.size, Manager.descendants_congr same]
  | bracket ref =>
      exact .bind (.query fun _ _ same => Manager.bracketWithin_congr same _ ref) fun _ => .pure _
  | print root name =>
      exact .bind (.query fun _ _ same => Manager.print_congr same root name) fun _ => .pure _
  | model ref =>
      exact .bind (.query fun _ _ same => Manager.model?_congr same ref) fun _ => .pure _
  | countModels ref domain =>
      exact .bind (.query fun _ _ same => Manager.countModels_congr same ref domain)
        fun _ => .pure _
  | nodeOf ref =>
      exact .bind (.query fun _ _ same => Manager.node_congr same ref) fun _ => .pure _
  | varOf ref =>
      exact .bind (.query fun _ _ same => Manager.var_congr same ref) fun _ => .pure _
  | lowOf ref | highOf ref =>
      refine .bind (.query fun left right same => ?_) fun _ => .pure _
      simp only [Manager.low, Manager.high, Manager.node_congr same]
  | contains ref =>
      refine .bind (.inspect fun left right same => ?_) fun _ => .pure _
      simp only [Manager.contains, same]
  | nodeCount | isEmpty =>
      refine .bind (.inspect fun left right same => ?_) fun _ => .pure _
      rw [same]
  | table call =>
      cases call with
      | insert => simp [Call.isPlain] at plain
      | _ =>
          simp only [Call.perform]
          exact .onTable fun _ => rfl
  | describe | budget | memo => simp [Call.isPlain] at plain

end SessionM

namespace Call

variable {call : Call Ref} {session left right : Session}

theorem isSafe_of_isHonest (honest : call.isHonest = true) : call.isSafe = true := by
  cases call with
  | table call =>
      cases call with
      | insert => exact honest
      | _ => rfl
  | _ => rfl

theorem run_lookUp_memo (op : Operator) (operands : List Ref) (memo : Memo) :
    (MemoCall.lookUp op operands).perform.run memo = match Key.ofOperands? op operands with
      | some key => .ok (.ref? (memo.find? key)) (memo.count key)
      | none => .error (.defect (.operandCount op operands.length)) memo := by
  simp only [MemoCall.perform, MemoCall.keyOf]
  cases Key.ofOperands? op operands <;> rfl

/-- An honest call to the computed table remembers nothing new. -/
theorem entries_of_memo {call : MemoCall Ref} (honest : (Call.memo call).isHonest = true)
    {memo : Memo} {index : Nat} {entry : Memo.Entry}
    (stored : (finalState (call.perform.run memo)).entries[index]? = some entry) :
    memo.entries[index]? = some entry := by
  cases call with
  | lookUp op operands =>
      rw [run_lookUp_memo] at stored
      cases made : Key.ofOperands? op operands with
      | none => rwa [made] at stored
      | some key =>
          rw [made] at stored
          exact (memo.entries_count key).symm ▸ stored
  | remember => simp [isHonest] at honest
  | clear =>
      change memo.clear.entries[index]? = some entry at stored
      simp [Memo.clear] at stored
  | size | capacity | isEmpty => exact stored

/-- The other honest calls leave the store alone and remember nothing. -/
theorem after_of_not_plain (honest : call.isHonest = true) (notPlain : call.isPlain = false)
    (sound : session.Sound) :
    (call.after session).table = session.table ∧ (call.after session).Sound := by
  cases call with
  | memo call =>
      rw [after_eq]
      have kept := fun index entry => @entries_of_memo call honest session.memo index entry
      change (finalState ((SessionM.onMemo call.perform).run session)).table = session.table ∧
        (finalState ((SessionM.onMemo call.perform).run session)).Sound
      rw [SessionM.run_onMemo]
      cases result : call.perform.run session.memo <;> rw [result] at kept <;>
        exact ⟨rfl, sound.forget kept⟩
  | describe | budget => exact ⟨rfl, sound⟩
  | table call => cases call <;> simp [isHonest, isPlain] at honest notPlain
  | _ => simp [isPlain] at notPlain

theorem outcome_eq (call : Call Ref) (session : Session) :
    call.outcome session = match storeView (call.perform.run session) with
      | .ok answer _ => .answered answer
      | .error failure _ => .failed failure := by
  simp only [outcome, Stepper.run]
  cases call.perform.run session <;> rfl

theorem table_after (call : Call Ref) (session : Session) :
    (call.after session).table = finalState (storeView (call.perform.run session)) := by
  rw [after_eq]
  cases call.perform.run session <;> rfl

/-- Sessions with the same store treat a plain call alike. -/
theorem agree_of_plain (plain : call.isPlain = true) (leftSound : left.Sound)
    (rightSound : right.Sound) (same : left.table = right.table) :
    call.outcome left = call.outcome right ∧
      (call.after left).table = (call.after right).table ∧
      (call.after left).Sound ∧ (call.after right).Sound := by
  obtain ⟨reference, simulates⟩ := SessionM.Transparent.perform plain left.table
  obtain ⟨leftView, leftAfter⟩ := simulates left rfl leftSound
  obtain ⟨rightView, rightAfter⟩ := simulates right same.symm rightSound
  rw [← same, ← leftView] at rightView
  rw [← after_eq] at leftAfter rightAfter
  refine ⟨?_, ?_, leftAfter, rightAfter⟩
  · rw [outcome_eq, outcome_eq, rightView]
  · rw [table_after, table_after, rightView]

theorem sound_after (honest : call.isHonest = true) (sound : session.Sound) :
    (call.after session).Sound := by
  cases plain : call.isPlain with
  | true => exact (agree_of_plain plain sound sound rfl).2.2.1
  | false => exact (after_of_not_plain honest plain sound).2

end Call

/-- Honest calls keep managers sound. -/
theorem Manager.Reachable.sound {manager : Manager}
    (reachable : manager.Reachable Call.isHonest) : manager.Sound := by
  induction reachable with
  | created run =>
      apply sound_of_entries_eq_empty (wellFormed_of_run_create run)
      obtain ⟨_, capacity, mask, mask_lt, memo⟩ := tables_of_run_create run
      rw [memo]
      rfl
  | called before honest sound => exact Call.sound_after honest sound

end DecisionDiagram
