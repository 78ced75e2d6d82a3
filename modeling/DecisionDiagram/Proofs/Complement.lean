import DecisionDiagram.Proofs.Footprint

/-!
# Complements

The diagram of a negation is the diagram of its operand with the constants swapped: every test
stays where it is, and no branches become equal.  So a negation and its operand have the same
shape in the store, even where they share nodes, and negating once more finds the operand again.
-/

namespace DecisionDiagram

namespace Diagram

variable {diagram inner : Diagram}

/-- The diagram with its constants swapped. -/
def complement : Diagram → Diagram
  | .constant value => .constant (!value)
  | .decision var low high => .decision var low.complement high.complement

@[simp] theorem complement_complement (diagram : Diagram) :
    diagram.complement.complement = diagram := by
  induction diagram with
  | constant value => rw [complement, complement, Bool.not_not]
  | decision var low high lowIH highIH => rw [complement, complement, lowIH, highIH]

theorem complement_injective : Function.Injective complement :=
  Function.LeftInverse.injective complement_complement

@[simp] theorem top_complement (diagram : Diagram) : diagram.complement.top = diagram.top := by
  cases diagram <;> rfl

theorem eval_complement (diagram : Diagram) (assignment : Assignment) :
    diagram.complement.eval assignment = !diagram.eval assignment := by
  induction diagram with
  | constant value => rfl
  | decision var low high lowIH highIH =>
      simp only [complement, eval, lowIH, highIH]
      split <;> rfl

theorem Canonical.complement (canonical : diagram.Canonical) : diagram.complement.Canonical := by
  induction canonical with
  | constant value => exact .constant _
  | decision lowAfter highAfter different _ _ lowIH highIH =>
      refine .decision ?_ ?_ (complement_injective.ne different) lowIH highIH
      · rwa [top_complement]
      · rwa [top_complement]

/-- Reduction has nothing to do when a canonical diagram is negated. -/
theorem Canonical.negation_eq (canonical : diagram.Canonical) :
    diagram.negation = diagram.complement :=
  (canonical.complement.eq_ofFunction (funext diagram.eval_complement)).symm

theorem subdiagrams_complement (diagram : Diagram) :
    diagram.complement.subdiagrams = diagram.subdiagrams.image complement := by
  induction diagram with
  | constant value => rfl
  | decision var low high lowIH highIH =>
      rw [complement, subdiagrams, subdiagrams, lowIH, highIH, Finset.image_insert,
        Finset.image_union, complement]

theorem complement_mem_subdiagrams (inside : inner ∈ diagram.subdiagrams) :
    inner.complement ∈ diagram.complement.subdiagrams := by
  rw [subdiagrams_complement]
  exact Finset.mem_image_of_mem complement inside

theorem card_subdiagrams_complement (diagram : Diagram) :
    diagram.complement.subdiagrams.card = diagram.subdiagrams.card := by
  rw [subdiagrams_complement, Finset.card_image_of_injective _ complement_injective]

end Diagram

/-! ## Opposite ids -/

namespace UniqueTable

open Diagram (complement_complement complement_mem_subdiagrams)

variable {table : UniqueTable} {ref other operand result : Ref} {diagram inner : Diagram}

/-- The ids of a diagram's subdiagrams. -/
def idsWithin (table : UniqueTable) (diagram : Diagram) : Set Ref :=
  { ref | ∃ inner ∈ diagram.subdiagrams, table.Represents ref inner }

open Classical in
/-- The id that unfolds into the complement; an id without one is taken for its own. -/
noncomputable def opposite (table : UniqueTable) (ref : Ref) : Ref :=
  if stored : ∃ other, table.Represents other (table.unfolding ref).complement then stored.choose
  else ref

/-- The map takes some ids one to one onto others, the constants to each other and every decision
node to one that tests the same variable and has the images of its branches as branches. -/
structure Mirrors (table : UniqueTable) (image : Ref → Ref) (ones others : Set Ref) : Prop where
  bijOn : Set.BijOn image ones others
  constant : ∀ value, image (.ofBool value) = .ofBool (!value)
  node : ∀ ref ∈ ones, ∀ node, table.node? ref = some node →
    node.low ∈ ones ∧ node.high ∈ ones ∧
      table.node? (image ref) = some ⟨node.var, image node.low, image node.high⟩

theorem Searchable.opposite_eq (searchable : table.Searchable)
    (represents : table.Represents ref diagram)
    (opposed : table.Represents other diagram.complement) : table.opposite ref = other := by
  obtain rfl := represents.unfolding_eq
  have stored : ∃ other, table.Represents other (table.unfolding ref).complement :=
    ⟨other, opposed⟩
  rw [opposite, dif_pos stored]
  exact searchable.ref_eq_of_represents stored.choose_spec opposed

theorem Searchable.opposite_ofBool (searchable : table.Searchable) (value : Bool) :
    table.opposite (.ofBool value) = .ofBool (!value) :=
  searchable.opposite_eq (represents_constant.2 rfl : table.Represents _ (.constant value))
    (represents_constant.2 rfl)

/-- A store that holds the complement of a diagram holds that of each of its parts. -/
theorem Searchable.represents_opposite (searchable : table.Searchable)
    (opposed : table.Represents result diagram.complement) (inside : inner ∈ diagram.subdiagrams)
    (unfolds : table.Represents ref inner) :
    table.Represents (table.opposite ref) inner.complement := by
  obtain ⟨other, otherUnfolds⟩ := opposed.subdiagrams_subset (complement_mem_subdiagrams inside)
  rwa [searchable.opposite_eq unfolds otherUnfolds]

theorem Searchable.mapsTo_opposite (searchable : table.Searchable)
    (opposed : table.Represents result diagram.complement) :
    Set.MapsTo table.opposite (table.idsWithin diagram) (table.idsWithin diagram.complement) := by
  rintro ref ⟨inner, inside, unfolds⟩
  exact ⟨inner.complement, complement_mem_subdiagrams inside,
    searchable.represents_opposite opposed inside unfolds⟩

theorem Searchable.leftInvOn_opposite (searchable : table.Searchable)
    (opposed : table.Represents result diagram.complement) :
    Set.LeftInvOn table.opposite table.opposite (table.idsWithin diagram) := by
  rintro ref ⟨inner, inside, unfolds⟩
  refine searchable.opposite_eq (searchable.represents_opposite opposed inside unfolds) ?_
  rwa [complement_complement]

/-- The parts of a diagram and those of its complement mirror each other. -/
theorem Searchable.mirrors_opposite (searchable : table.Searchable)
    (represents : table.Represents operand diagram)
    (opposed : table.Represents result diagram.complement) :
    table.Mirrors table.opposite (table.idsWithin diagram)
      (table.idsWithin diagram.complement) where
  bijOn := by
    rw [← complement_complement diagram] at represents
    have back := searchable.mapsTo_opposite represents
    rw [complement_complement] at back
    exact Set.InvOn.bijOn
      ⟨searchable.leftInvOn_opposite opposed, searchable.leftInvOn_opposite represents⟩
      (searchable.mapsTo_opposite opposed) back
  constant := searchable.opposite_ofBool
  node := by
    rintro ref ⟨inner, inside, unfolds⟩ node content
    have opposite := searchable.represents_opposite opposed inside unfolds
    cases inner with
    | constant value =>
        rw [represents_constant.1 unfolds, table.node?_ofBool] at content
        cases content
    | decision var low high =>
        obtain ⟨same, sameContent, rfl, lowUnfolds, highUnfolds⟩ := represents_decision.1 unfolds
        obtain rfl : same = node := by simpa [content] using sameContent.symm
        obtain ⟨twin, twinContent, sameVar, lowOpposed, highOpposed⟩ :=
          represents_decision.1 opposite
        have within := Diagram.subdiagrams_subset inside
        refine ⟨⟨low, within ?_, lowUnfolds⟩, ⟨high, within ?_, highUnfolds⟩, ?_⟩
        · exact Diagram.mem_subdiagrams_decision.2 (.inr (.inl low.mem_subdiagrams_self))
        · exact Diagram.mem_subdiagrams_decision.2 (.inr (.inr high.mem_subdiagrams_self))
        · rw [searchable.opposite_eq lowUnfolds lowOpposed,
            searchable.opposite_eq highUnfolds highOpposed, ← sameVar]
          exact twinContent

/-- A negation asks for the complement. -/
theorem WellFormed.denotes_complement (wellFormed : table.WellFormed)
    (represents : table.Represents operand diagram) :
    table.Denotes (.negation operand) diagram.complement := by
  have denotes := wellFormed.denotes_negation represents.knows
  rwa [represents.unfolding_eq, (wellFormed.canonical represents).negation_eq] at denotes

end UniqueTable

/-! ## Negations -/

section Negations

variable {session : Session} {operand result : Ref} {diagram : Diagram}

/-- A negation that is answered leaves an id of the complement. -/
theorem Call.interned_of_negate (sound : session.Sound)
    (represents : session.table.Represents operand diagram)
    (negated : (Call.negate operand).outcome session = .answered (.ref result)) :
    session.table.Interned diagram.complement result
      ((Call.negate operand).after session).table := by
  have asks : (Call.negate operand).key? = some (.negation operand) := rfl
  have denotes := sound.wellFormed.denotes_complement represents
  rcases outcome_cases sound asks denotes with ⟨issued, answered, interned, _⟩ | ⟨full, _⟩
  · rw [negated] at answered
    cases answered
    exact interned
  · rw [negated] at full
    cases full

/-- A negation is answered without a change to the store that holds it. -/
theorem Call.negate_of_represents (sound : session.Sound)
    (represents : session.table.Represents operand diagram)
    (opposed : session.table.Represents result diagram.complement) :
    (Call.negate operand).outcome session = .answered (.ref result) ∧
      ((Call.negate operand).after session).table = session.table := by
  have asks : (Call.negate operand).key? = some (.negation operand) := rfl
  have denotes := sound.wellFormed.denotes_complement represents
  have found := sound.wellFormed.run_intern_of_represents opposed
  rw [outcome_eq, table_after, (SessionM.Simulates.perform sound asks denotes).view,
    run_bind_of_ok found]
  exact ⟨rfl, rfl⟩

end Negations

/-- The exclusive disjunction of two variables and no negation of it, in a store of four slots. -/
def Session.balanced : Session :=
  fresh.run [.makeVar 1, .makeNegatedVar 1, .make 0 ⟨4⟩ ⟨3⟩]

theorem Session.reachable_balanced : balanced.toManager.Reachable Call.isHonest :=
  (reachable_fresh Call.isHonest).run _ (by decide)

/-- If the negation of a known id is answered, then after whatever honest calls the negation of
the answer is that id, and changes no slot.  What the two ids lead to differs only in that the
constants are swapped, so both have the same size. -/
theorem negation_of_reachable {session : Session}
    (reachable : session.toManager.Reachable Call.isHonest) {operand result : Ref}
    (known : session.contains operand = true)
    (negated : (Call.negate operand).outcome session = .answered (.ref result))
    {calls : List (Call Ref)} (honest : ∀ other ∈ calls, other.isHonest = true) :
    let later := ((Call.negate operand).after session).run calls
    ((Call.negate result).outcome later = .answered (.ref operand) ∧
      ((Call.negate result).after later).table = later.table) ∧
    (∃ (image : Ref → Ref) (ones others : List Ref),
      later.descendants [operand] = .ok ones ∧ later.descendants [result] = .ok others ∧
      image operand = result ∧
      later.table.Mirrors image { ref | ref ∈ ones } { ref | ref ∈ others }) ∧
    ∃ size, later.size operand = .ok size ∧ later.size result = .ok size := by
  intro later
  have sound : session.Sound := reachable.sound
  obtain ⟨diagram, before⟩ :=
    sound.wellFormed.exists_represents (Manager.contains_iff_knows.1 known)
  obtain ⟨_, grown, answered⟩ := Call.interned_of_negate sound before negated
  obtain ⟨laterSound, further⟩ : later.Sound ∧
      later.table.Extends ((Call.negate operand).after session).table :=
    Session.sound_run (Call.sound_after rfl sound) honest
  have wellFormed := laterSound.wellFormed
  have represents := before.extend (further.trans grown)
  have opposed := answered.extend further
  refine ⟨?again, ?mirrored, ?sizes⟩
  case again =>
    refine Call.negate_of_represents laterSound opposed ?_
    rwa [Diagram.complement_complement]
  case mirrored =>
    have searchable := wellFormed.searchable
    obtain ⟨ones, listed, onesIff⟩ := Manager.descendants_of_represents searchable represents
    obtain ⟨others, otherListed, othersIff⟩ := Manager.descendants_of_represents searchable opposed
    refine ⟨later.table.opposite, ones, others, listed, otherListed,
      searchable.opposite_eq represents opposed, ?_⟩
    rw [show { ref | ref ∈ ones } = later.table.idsWithin diagram from Set.ext onesIff,
      show { ref | ref ∈ others } = later.table.idsWithin diagram.complement from
        Set.ext othersIff]
    exact searchable.mirrors_opposite represents opposed
  case sizes =>
    refine ⟨diagram.subdiagrams.card, Manager.size_of_represents wellFormed represents, ?_⟩
    rw [← diagram.card_subdiagrams_complement]
    exact Manager.size_of_represents wellFormed opposed

/-- The negation takes the last slot and shares both branches with its operand, which change
places.  When everything is forgotten it is still negated. -/
theorem negation_of_balanced :
    let later := ((Call.negate ⟨5⟩).after Session.balanced).run [.memo .clear]
    (Call.negate ⟨5⟩).outcome Session.balanced = .answered (.ref ⟨2⟩) ∧
      later.table.size = later.table.capacity ∧
      (Call.negate ⟨2⟩).outcome later = .answered (.ref ⟨5⟩) ∧
      ∃ (image : Ref → Ref) (ones others : Set Ref),
        later.table.Mirrors image ones others ∧ image ⟨5⟩ = ⟨2⟩ ∧
          image ⟨3⟩ = ⟨4⟩ ∧ image ⟨4⟩ = ⟨3⟩ := by
  intro later
  have negated : (Call.negate ⟨5⟩).outcome Session.balanced = .answered (.ref ⟨2⟩) := by
    decide +kernel
  obtain ⟨⟨again, _⟩, ⟨image, ones, others, listed, _, root, mirrors⟩, _⟩ :=
    @negation_of_reachable Session.balanced Session.reachable_balanced ⟨5⟩ ⟨2⟩ (by decide)
      negated [.memo .clear] (by decide)
  have content : later.table.node? ⟨5⟩ = some ⟨0, ⟨4⟩, ⟨3⟩⟩ := by decide +kernel
  have mirrored : later.table.node? ⟨2⟩ = some ⟨0, ⟨3⟩, ⟨4⟩⟩ := by decide +kernel
  have inside : (⟨5⟩ : Ref) ∈ ones := (Manager.mem_descendants_iff listed).2 (.root (by decide))
  obtain ⟨_, _, twin⟩ := mirrors.node ⟨5⟩ inside _ content
  rw [root, mirrored] at twin
  injection twin with twin
  injection twin with _ lowImage highImage
  exact ⟨negated, by decide +kernel, again, image, _, _, mirrors, root, highImage.symm,
    lowImage.symm⟩

end DecisionDiagram
