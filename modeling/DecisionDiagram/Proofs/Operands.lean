import DecisionDiagram.Script

/-!
# Operands of calls

A call is the same call whatever its operands are.  Replacing its operands commutes with
resolving them, and resolving asks for nothing but the operands.
-/

namespace DecisionDiagram

variable {ρ σ τ : Type}

/-! ## Lists of operands -/

theorem mapM_congr {first second : ρ → Option σ} {operands : List ρ}
    (agree : ∀ operand ∈ operands, first operand = second operand) :
    operands.mapM first = operands.mapM second := by
  induction operands with
  | nil => rfl
  | cons operand rest ih =>
      rw [List.mapM_cons, List.mapM_cons, agree operand List.mem_cons_self,
        ih fun other member => agree other (List.mem_cons_of_mem operand member)]

theorem mapM_map_option (lookup : ρ → Option σ) (image : σ → τ) (operands : List ρ) :
    operands.mapM (fun operand => (lookup operand).map image) =
      (operands.mapM lookup).map (List.map image) := by
  induction operands with
  | nil => rfl
  | cons operand rest ih =>
      rw [List.mapM_cons, List.mapM_cons, ih]
      cases lookup operand <;> cases rest.mapM lookup <;> rfl

/-! ## Replacing operands -/

namespace TableCall

def map (image : ρ → σ) : TableCall ρ → TableCall σ
  | .insert var low high => .insert var (image low) (image high)
  | .node ref => .node (image ref)
  | .size => .size
  | .capacity => .capacity
  | .isEmpty => .isEmpty
  | .toList => .toList

def operands : TableCall ρ → List ρ
  | .insert _ low high => [low, high]
  | .node ref => [ref]
  | _ => []

end TableCall

namespace MemoCall

def map (image : ρ → σ) : MemoCall ρ → MemoCall σ
  | .lookUp op operands => .lookUp op (operands.map image)
  | .remember op operands result => .remember op (operands.map image) (image result)
  | .size => .size
  | .capacity => .capacity
  | .isEmpty => .isEmpty
  | .clear => .clear

def operands : MemoCall ρ → List ρ
  | .lookUp _ operands => operands
  | .remember _ operands result => operands ++ [result]
  | _ => []

end MemoCall

namespace Call

def map (image : ρ → σ) : Call ρ → Call σ
  | .constant value => .constant value
  | .isConstant value ref => .isConstant value (image ref)
  | .isTerminal ref => .isTerminal (image ref)
  | .make var low high => .make var (image low) (image high)
  | .makeVar var => .makeVar var
  | .makeNegatedVar var => .makeNegatedVar var
  | .negate operand => .negate (image operand)
  | .apply op left right => .apply op (image left) (image right)
  | .choose condition yes no => .choose (image condition) (image yes) (image no)
  | .conjoin operands => .conjoin (operands.map image)
  | .disjoin operands => .disjoin (operands.map image)
  | .cofactors ref var => .cofactors (image ref) var
  | .descendants roots => .descendants (roots.map image)
  | .size root => .size (image root)
  | .bracket ref => .bracket (image ref)
  | .print root name => .print (image root) name
  | .model ref => .model (image ref)
  | .countModels ref domain => .countModels (image ref) domain
  | .nodeOf ref => .nodeOf (image ref)
  | .varOf ref => .varOf (image ref)
  | .lowOf ref => .lowOf (image ref)
  | .highOf ref => .highOf (image ref)
  | .contains ref => .contains (image ref)
  | .nodeCount => .nodeCount
  | .isEmpty => .isEmpty
  | .describe => .describe
  | .budget => .budget
  | .table call => .table (call.map image)
  | .memo call => .memo (call.map image)

def operands : Call ρ → List ρ
  | .isConstant _ ref | .isTerminal ref | .negate ref | .cofactors ref _ | .size ref
  | .bracket ref | .print ref _ | .model ref | .countModels ref _ | .nodeOf ref | .varOf ref
  | .lowOf ref | .highOf ref | .contains ref => [ref]
  | .make _ low high => [low, high]
  | .apply _ left right => [left, right]
  | .choose condition yes no => [condition, yes, no]
  | .conjoin operands | .disjoin operands | .descendants operands => operands
  | .table call => call.operands
  | .memo call => call.operands
  | _ => []

/-- Resolving asks for nothing but the operands. -/
theorem resolve_congr {first second : ρ → Option σ} {call : Call ρ}
    (agree : ∀ operand ∈ call.operands, first operand = second operand) :
    call.resolve first = call.resolve second := by
  cases call with
  | conjoin operands | disjoin operands | descendants operands =>
      have same : operands.mapM first = operands.mapM second := mapM_congr agree
      simp only [resolve, same]
  | table call =>
      cases call with
      | insert var low high =>
          simp only [resolve, TableCall.resolve, agree low (by simp [operands, TableCall.operands]),
            agree high (by simp [operands, TableCall.operands])]
      | node ref =>
          simp only [resolve, TableCall.resolve, agree ref (by simp [operands, TableCall.operands])]
      | _ => rfl
  | memo call =>
      cases call with
      | lookUp op operands =>
          have same : operands.mapM first = operands.mapM second := mapM_congr agree
          simp only [resolve, MemoCall.resolve, same]
      | remember op operands result =>
          have same : operands.mapM first = operands.mapM second :=
            mapM_congr fun other member => agree other (List.mem_append_left _ member)
          have sameResult := agree result (List.mem_append_right _ List.mem_cons_self)
          simp only [resolve, MemoCall.resolve, same, sameResult]
      | _ => rfl
  | _ => simp_all [operands, resolve]

/-- Operands may be replaced before or after they are resolved. -/
theorem resolve_map (lookup : ρ → Option σ) (image : σ → τ) (call : Call ρ) :
    call.resolve (fun operand => (lookup operand).map image) =
      (call.resolve lookup).map (Call.map image) := by
  cases call with
  | conjoin operands | disjoin operands | descendants operands =>
      simp only [resolve, mapM_map_option]
      cases operands.mapM lookup <;> rfl
  | make _ left right | apply _ left right =>
      simp only [resolve]
      cases lookup left <;> cases lookup right <;> rfl
  | choose condition yes no =>
      simp only [resolve]
      cases lookup condition <;> cases lookup yes <;> cases lookup no <;> rfl
  | isConstant _ ref | isTerminal ref | negate ref | cofactors ref _ | size ref | bracket ref
  | print ref _ | model ref | countModels ref _ | nodeOf ref | varOf ref | lowOf ref
  | highOf ref | contains ref =>
      simp only [resolve]
      cases lookup ref <;> rfl
  | table call =>
      cases call with
      | insert var low high =>
          simp only [resolve, TableCall.resolve]
          cases lookup low <;> cases lookup high <;> rfl
      | node ref =>
          simp only [resolve, TableCall.resolve]
          cases lookup ref <;> rfl
      | _ => rfl
  | memo call =>
      cases call with
      | lookUp op operands =>
          simp only [resolve, MemoCall.resolve, mapM_map_option]
          cases operands.mapM lookup <;> rfl
      | remember op operands result =>
          simp only [resolve, MemoCall.resolve, mapM_map_option]
          cases operands.mapM lookup <;> cases lookup result <;> rfl
      | _ => rfl
  | _ => rfl

theorem operands_map (image : σ → τ) (call : Call σ) :
    (call.map image).operands = call.operands.map image := by
  cases call with
  | table call => cases call <;> rfl
  | memo call =>
      cases call with
      | remember op others result =>
          change others.map image ++ [image result] = (others ++ [result]).map image
          rw [List.map_append, List.map_singleton]
      | _ => rfl
  | _ => rfl

/-- The operands of a resolved call were found for operands of the call, which resolving to values
that carry their origin shows. -/
theorem exists_of_mem_operands {lookup : ρ → Option σ} {call : Call ρ} {resolved : Call σ}
    (found : call.resolve lookup = some resolved) :
    ∀ value ∈ resolved.operands, ∃ operand ∈ call.operands, lookup operand = some value := by
  classical
  let origin := { value // ∃ operand ∈ call.operands, lookup operand = some value }
  let trace : ρ → Option origin := fun operand =>
    if member : operand ∈ call.operands then
      (lookup operand).attach.map fun value => ⟨value.1, operand, member, value.2⟩
    else none
  have traced : ∀ operand ∈ call.operands,
      lookup operand = (trace operand).map Subtype.val := by
    intro operand member
    simp [trace, member, Function.comp_def]
  rw [resolve_congr traced, resolve_map] at found
  intro value member
  obtain ⟨known, _, rfl⟩ := Option.map_eq_some_iff.1 found
  rw [operands_map] at member
  obtain ⟨found, _, rfl⟩ := List.mem_map.1 member
  exact found.2

end Call
end DecisionDiagram
