import DecisionDiagram.Proofs.Descent
import DecisionDiagram.Proofs.Models
import DecisionDiagram.Text

/-!
# What a bracketed term tells

A bracketed term names every id on its way, with the variable that it tests and with its
branches.  Nothing of this is lost in the text: the numbers end where no digit follows, and the
brackets tell where a branch ends.  So the term can be read back, and managers that print the
same term hold the same nodes under the same ids.
-/

namespace DecisionDiagram

/-- A diagram without sharing whose tests carry the ids under which they are stored. -/
inductive Outline where
  | constant (value : Bool)
  | decision (ref : Ref) (var : Var) (high low : Outline)
  deriving DecidableEq, Repr

namespace Outline

variable {outline : Outline} {ref : Ref} {var : Var} {depth : Nat} {rest : List Char}

def root : Outline → Ref
  | .constant value => .ofBool value
  | .decision ref .. => ref

def shape : Outline → Diagram
  | .constant value => .constant value
  | .decision _ var high low => .decision var low.shape high.shape

def refs : Outline → List Ref
  | .constant value => [.ofBool value]
  | .decision ref _ high low => ref :: (high.refs ++ low.refs)

def text : Outline → String
  | .constant false => "(0)"
  | .constant true => "(1)"
  | .decision ref var high low => s!"{ref}:(x{var}, {high.text}, {low.text})"

theorem root_mem_refs (outline : Outline) : outline.root ∈ outline.refs := by
  cases outline with
  | constant value => exact List.mem_singleton_self _
  | decision ref var high low => exact List.mem_cons_self

/-! ## Reading -/

def readNumber (text : List Char) : UInt32 × List Char :=
  (UInt32.ofNat (Nat.ofDigitChars 10 (text.takeWhile Char.isDigit) 0),
    text.dropWhile Char.isDigit)

/-- What follows a mark at the beginning of a text. -/
def skip? (mark : String) (text : List Char) : Option (List Char) :=
  mark.toList.isPrefixOf? text

/-- The term at the beginning of a text and what follows it, at most so many levels deep. -/
def readWithin : (depth : Nat) → List Char → Option (Outline × List Char)
  | 0, _ => none
  | _ + 1, '(' :: '0' :: ')' :: rest => some (.constant false, rest)
  | _ + 1, '(' :: '1' :: ')' :: rest => some (.constant true, rest)
  | depth + 1, '@' :: rest => do
      let (id, rest) := readNumber rest
      let rest ← skip? ":(x" rest
      let (var, rest) := readNumber rest
      let rest ← skip? ", " rest
      let (high, rest) ← readWithin depth rest
      let rest ← skip? ", " rest
      let (low, rest) ← readWithin depth rest
      let rest ← skip? ")" rest
      some (.decision ⟨id⟩ var high low, rest)
  | _ + 1, _ => none

/-- The outline that a text is the bracketed term of.  Every level of nesting takes a
character at least. -/
def parse? (text : String) : Option Outline :=
  match readWithin (text.length + 1) text.toList with
  | some (outline, []) => some outline
  | _ => none

theorem toList_toString (number : UInt32) :
    (toString number).toList = Nat.toDigits 10 number.toNat :=
  String.toList_ofList

theorem isDigit_of_mem_toString {number : UInt32} {digit : Char}
    (member : digit ∈ (toString number).toList) : digit.isDigit = true := by
  rw [toList_toString] at member
  exact Nat.isDigit_of_mem_toDigits (by decide) (by decide) member

/-- A number ends where no digit follows. -/
theorem readNumber_of_takeWhile (number : UInt32) {rest : List Char}
    (ends : rest.takeWhile Char.isDigit = []) :
    readNumber ((toString number).toList ++ rest) = (number, rest) := by
  have all : ∀ digit ∈ (toString number).toList, digit.isDigit = true := fun _ member =>
    isDigit_of_mem_toString member
  have everything : rest.dropWhile Char.isDigit = rest := by
    have parts := @List.takeWhile_append_dropWhile _ Char.isDigit rest
    rwa [ends, List.nil_append] at parts
  rw [readNumber, List.takeWhile_append_of_pos all, List.dropWhile_append_of_pos all, ends,
    everything, List.append_nil, toList_toString,
    Nat.ofDigitChars_toDigits (by decide : 1 < 10) (by decide : 10 ≤ 10), UInt32.ofNat_toNat]

theorem readNumber_append (number : UInt32) {mark : Char} (ends : mark.isDigit = false)
    (rest : List Char) :
    readNumber ((toString number).toList ++ mark :: rest) = (number, mark :: rest) :=
  readNumber_of_takeWhile number (by simp [ends])

theorem readNumber_toString (number : UInt32) :
    readNumber (toString number).toList = (number, []) := by
  have whole := @readNumber_of_takeWhile number [] rfl
  rwa [List.append_nil] at whole

@[simp] theorem skip?_append (mark : String) (rest : List Char) :
    skip? mark (mark.toList ++ rest) = some rest :=
  List.isPrefixOf?_eq_some_iff_append_eq.2 rfl

theorem toList_text_decision (ref : Ref) (var : Var) (high low : Outline) :
    (decision ref var high low).text.toList = '@' :: ((toString ref.id).toList ++ (":(x".toList ++
      ((toString var).toList ++ (", ".toList ++ (high.text.toList ++ (", ".toList ++
        (low.text.toList ++ ")".toList))))))) := by
  have written : toString ref = "@" ++ toString ref.id := rfl
  have same : ∀ string : String, toString string = string := fun _ => rfl
  simp [text, written, same]

theorem height_le_length (outline : Outline) :
    outline.shape.height ≤ outline.text.toList.length := by
  induction outline with
  | constant value => exact Nat.zero_le _
  | decision ref var high low highIH lowIH =>
      simp only [shape, Diagram.height, toList_text_decision, List.length_cons, List.length_append]
      omega

/-- The term of an outline is read back, whatever follows it.  No digit follows a number in it. -/
theorem readWithin_text (outline : Outline) (enough : outline.shape.height < depth)
    (rest : List Char) :
    readWithin depth (outline.text.toList ++ rest) = some (outline, rest) := by
  induction outline generalizing depth rest with
  | constant value =>
      obtain ⟨depth, rfl⟩ : ∃ less, depth = less + 1 := ⟨depth - 1, by omega⟩
      cases value <;> rfl
  | decision ref var high low highIH lowIH =>
      obtain ⟨depth, rfl⟩ : ∃ less, depth = less + 1 := ⟨depth - 1, by omega⟩
      simp only [shape, Diagram.height] at enough
      have highEnough : high.shape.height < depth := by omega
      have lowEnough : low.shape.height < depth := by omega
      have idRead : ∀ more, readNumber ((toString ref.id).toList ++ (":(x".toList ++ more)) =
          (ref.id, ":(x".toList ++ more) := fun _ => readNumber_append ref.id (by decide) _
      have varRead : ∀ more, readNumber ((toString var).toList ++ (", ".toList ++ more)) =
          (var, ", ".toList ++ more) := fun _ => readNumber_append var (by decide) _
      rw [toList_text_decision]
      simp only [List.cons_append, List.append_assoc, readWithin, idRead, varRead, skip?_append,
        highIH highEnough, lowIH lowEnough, Option.bind_eq_bind, Option.bind_some]

theorem parse?_text (outline : Outline) : parse? outline.text = some outline := by
  have enough : outline.shape.height < outline.text.length + 1 :=
    Nat.lt_succ_of_le (String.length_toList ▸ outline.height_le_length)
  have read := outline.readWithin_text enough []
  rw [List.append_nil] at read
  rw [parse?, read]

end Outline

/-! ## Outlines of ids -/

namespace UniqueTable

variable {table : UniqueTable} {ref : Ref} {node : Node} {diagram : Diagram}
variable {outline : Outline}

/-- Every test of the outline is stored under its id, with the ids of its branches. -/
def Describes (table : UniqueTable) : Outline → Prop
  | .constant _ => True
  | .decision ref var high low =>
      table.node? ref = some ⟨var, low.root, high.root⟩ ∧ table.Describes high ∧
        table.Describes low

/-- An id that unfolds into a diagram has an outline, which adds the ids. -/
theorem Represents.exists_outline (represents : table.Represents ref diagram) :
    ∃ outline, outline.root = ref ∧ outline.shape = diagram ∧ table.Describes outline := by
  induction diagram generalizing ref with
  | constant value => exact ⟨.constant value, (represents_constant.1 represents).symm, rfl, trivial⟩
  | decision var low high lowIH highIH =>
      obtain ⟨node, content, rfl, lowRepresents, highRepresents⟩ :=
        represents_decision.1 represents
      obtain ⟨lowOutline, lowRoot, rfl, lowDescribed⟩ := lowIH lowRepresents
      obtain ⟨highOutline, highRoot, rfl, highDescribed⟩ := highIH highRepresents
      refine ⟨.decision ref node.var highOutline lowOutline, rfl, rfl, ?_, highDescribed,
        lowDescribed⟩
      rw [content, lowRoot, highRoot]

/-- What an outline leads to is named in it, and the tests among it are stored as they are
named. -/
theorem Describes.node?_of_mem {other : UniqueTable} (described : table.Describes outline)
    (otherDescribed : other.Describes outline) (member : ref ∈ outline.refs)
    (decision : ref.isTerminal = false) :
    ∃ node, table.node? ref = some node ∧ other.node? ref = some node ∧
      node.low ∈ outline.refs ∧ node.high ∈ outline.refs := by
  induction outline with
  | constant value =>
      rw [List.mem_singleton.1 member] at decision
      cases value <;> cases decision
  | decision test var high low highIH lowIH =>
      obtain ⟨content, highDescribed, lowDescribed⟩ := described
      obtain ⟨otherContent, otherHighDescribed, otherLowDescribed⟩ := otherDescribed
      have below : ∀ child, child ∈ high.refs ∨ child ∈ low.refs →
          child ∈ (Outline.decision test var high low).refs := fun child inside =>
        List.mem_cons_of_mem test (List.mem_append.2 inside)
      rcases List.mem_cons.1 member with rfl | inside
      · exact ⟨_, content, otherContent, below _ (.inr low.root_mem_refs),
          below _ (.inl high.root_mem_refs)⟩
      · rcases List.mem_append.1 inside with inHigh | inLow
        · obtain ⟨node, same, otherSame, lowMember, highMember⟩ :=
            highIH highDescribed otherHighDescribed inHigh
          exact ⟨node, same, otherSame, below _ (.inl lowMember), below _ (.inl highMember)⟩
        · obtain ⟨node, same, otherSame, lowMember, highMember⟩ :=
            lowIH lowDescribed otherLowDescribed inLow
          exact ⟨node, same, otherSame, below _ (.inr lowMember), below _ (.inr highMember)⟩

theorem Describes.knows_of_mem (described : table.Describes outline)
    (member : ref ∈ outline.refs) : table.Knows ref := by
  cases terminal : ref.isTerminal with
  | true => exact .inl terminal
  | false =>
      obtain ⟨node, content, _⟩ := described.node?_of_mem described member terminal
      exact .inr ⟨node, content⟩

theorem Describes.represents (described : table.Describes outline) :
    table.Represents outline.root outline.shape := by
  induction outline with
  | constant value => exact represents_constant.2 rfl
  | decision test var high low highIH lowIH =>
      obtain ⟨content, highDescribed, lowDescribed⟩ := described
      exact .of_node? content (lowIH lowDescribed) (highIH highDescribed)

end UniqueTable

namespace Manager

variable {manager left right : Manager} {outline : Outline} {ref : Ref} {depth : Nat}

/-- With enough levels the outline of an id is what its bracketed term says. -/
theorem bracketWithin_of_describes (described : manager.table.Describes outline)
    (enough : outline.shape.height < depth) :
    manager.bracketWithin depth outline.root = .ok outline.text := by
  induction outline generalizing depth with
  | constant value =>
      obtain ⟨depth, rfl⟩ : ∃ less, depth = less + 1 := ⟨depth - 1, by omega⟩
      cases value <;> rfl
  | decision ref var high low highIH lowIH =>
      obtain ⟨depth, rfl⟩ : ∃ less, depth = less + 1 := ⟨depth - 1, by omega⟩
      obtain ⟨content, highDescribed, lowDescribed⟩ := described
      simp only [Outline.shape, Diagram.height] at enough
      have highEnough : high.shape.height < depth := by omega
      have lowEnough : low.shape.height < depth := by omega
      have notConstant : ref.constant? = none := UniqueTable.constant?_of_node? content
      change manager.bracketWithin (depth + 1) ref = _
      simp only [bracketWithin, notConstant, node_eq, content, bind, Except.bind,
        highIH highDescribed highEnough, lowIH lowDescribed lowEnough]
      rfl

theorem reaches_iff_of_describes (described : manager.table.Describes outline) :
    manager.Reaches Node.lowFirst [outline.root] ref ↔ ref ∈ outline.refs := by
  constructor
  · intro reaches
    induction reaches with
    | root member => exact List.mem_singleton.1 member ▸ outline.root_mem_refs
    | @branch ref child node _ content branch reached =>
        have decision := UniqueTable.not_isTerminal_of_node? content
        obtain ⟨same, sameContent, _, lowMember, highMember⟩ :=
          described.node?_of_mem described reached decision
        rw [content] at sameContent
        cases sameContent
        simp only [Node.lowFirst, List.mem_cons, List.not_mem_nil, or_false] at branch
        rcases branch with rfl | rfl
        · exact lowMember
        · exact highMember
  · intro member
    induction outline with
    | constant value => exact .root member
    | decision test var high low highIH lowIH =>
        obtain ⟨content, highDescribed, lowDescribed⟩ := described
        have start : manager.Reaches Node.lowFirst [test] test := .root List.mem_cons_self
        rcases List.mem_cons.1 member with rfl | inside
        · exact start
        · rcases List.mem_append.1 inside with inHigh | inLow
          · exact (start.branch content (by simp [Node.lowFirst])).trans
              (highIH highDescribed inHigh)
          · exact (start.branch content (by simp [Node.lowFirst])).trans (lowIH lowDescribed inLow)

/-- The descendants of an id are the ids of its outline.  They are listed in ascending order, so
the outline determines the list. -/
theorem descendants_of_describes (leftSearchable : left.table.Searchable)
    (rightSearchable : right.table.Searchable) (leftDescribed : left.table.Describes outline)
    (rightDescribed : right.table.Describes outline) :
    ∃ reached, left.descendants [outline.root] = .ok reached ∧
      right.descendants [outline.root] = .ok reached ∧
      ∀ ref, ref ∈ reached ↔ ref ∈ outline.refs := by
  have listed : ∀ manager : Manager, manager.table.Searchable → manager.table.Describes outline →
      ∃ reached, manager.descendants [outline.root] = .ok reached ∧ reached.Nodup ∧
        ∀ ref, ref ∈ reached ↔ ref ∈ outline.refs := by
    intro manager searchable described
    simp only [← reaches_iff_of_describes described]
    apply exists_descendants searchable
    intro ref reaches
    exact described.knows_of_mem ((reaches_iff_of_describes described).1 reaches)
  obtain ⟨leftReached, leftListed, leftNodup, leftMembers⟩ :=
    listed left leftSearchable leftDescribed
  obtain ⟨rightReached, rightListed, rightNodup, rightMembers⟩ :=
    listed right rightSearchable rightDescribed
  have permuted : rightReached.Perm leftReached :=
    (List.perm_ext_iff_of_nodup rightNodup leftNodup).2 fun ref =>
      (rightMembers ref).trans (leftMembers ref).symm
  have same : rightReached = leftReached := descendants_unique rightListed leftListed permuted
  exact ⟨leftReached, leftListed, same ▸ rightListed, leftMembers⟩

/-- A known id has an outline, and its bracketed term is the text of this outline. -/
theorem exists_outline_of_known (wellFormed : manager.table.WellFormed)
    (known : manager.table.Knows ref) :
    ∃ outline, outline.root = ref ∧ manager.table.Describes outline ∧
      manager.bracket ref = .ok outline.text := by
  obtain ⟨diagram, represents⟩ := wellFormed.exists_represents known
  obtain ⟨outline, rfl, rfl, described⟩ := represents.exists_outline
  have limit : terminalVar.toNat < nestingLimit := by decide
  have high := (wellFormed.canonical represents).height_add_top_le
  exact ⟨outline, rfl, described, bracketWithin_of_describes described (by omega)⟩

end Manager

/-- A bracketed term can be read back, whichever manager printed it: it names all ids that its
id leads to, with their variables and branches.  So if two managers print the same term, they
print it for the same id, which has the same descendants, contents and function in both. -/
theorem bracket_of_reachable {left right : Manager} (leftReachable : left.Reachable Call.isSafe)
    (rightReachable : right.Reachable Call.isSafe) {leftRef rightRef : Ref}
    (leftKnown : left.contains leftRef = true) (rightKnown : right.contains rightRef = true) :
    (∃ outline, outline.root = leftRef ∧ left.table.Describes outline ∧
      left.bracket leftRef = .ok outline.text ∧ Outline.parse? outline.text = some outline) ∧
    (left.bracket leftRef = right.bracket rightRef →
      leftRef = rightRef ∧
      (∃ reached, left.descendants [leftRef] = .ok reached ∧
        right.descendants [rightRef] = .ok reached ∧
        ∀ ref ∈ reached, ref.isTerminal = false → ∃ node,
          left.table.node? ref = some node ∧ right.table.node? ref = some node) ∧
      left.table.function leftRef = right.table.function rightRef) := by
  have leftWellFormed := leftReachable.wellFormed
  have rightWellFormed := rightReachable.wellFormed
  obtain ⟨outline, rfl, described, printed⟩ :=
    Manager.exists_outline_of_known leftWellFormed (Manager.contains_iff_knows.1 leftKnown)
  refine ⟨⟨outline, rfl, described, printed, outline.parse?_text⟩, ?_⟩
  intro same
  obtain ⟨other, rfl, otherDescribed, otherPrinted⟩ :=
    Manager.exists_outline_of_known rightWellFormed (Manager.contains_iff_knows.1 rightKnown)
  have equal : other = outline := by
    rw [printed, otherPrinted] at same
    have read := outline.parse?_text
    rw [Except.ok.inj same, other.parse?_text] at read
    exact Option.some.inj read
  subst equal
  obtain ⟨reached, listed, otherListed, members⟩ := Manager.descendants_of_describes
    leftWellFormed.searchable rightWellFormed.searchable described otherDescribed
  refine ⟨rfl, ⟨reached, listed, otherListed, ?contents⟩, ?function⟩
  case contents =>
    intro ref member decision
    obtain ⟨node, content, otherContent, _⟩ :=
      described.node?_of_mem otherDescribed ((members ref).1 member) decision
    exact ⟨node, content, otherContent⟩
  case function =>
    exact leftWellFormed.function_eq_of_represents rightWellFormed described.represents
      otherDescribed.represents

/-- A manager that was told a wrong result and one that was not print the same exclusive
disjunction. -/
theorem bracket_of_misled :
    let other := Session.fresh.run [.makeVar 1, .makeVar 0, .apply .xor ⟨3⟩ ⟨2⟩]
    Session.misled.toManager.Reachable Call.isSafe ∧ other.toManager.Reachable Call.isSafe ∧
      Session.misled.contains ⟨5⟩ = true ∧ other.contains ⟨5⟩ = true ∧
      Session.misled.bracket ⟨5⟩ = other.bracket ⟨5⟩ ∧
      Session.misled.table.function ⟨5⟩ = other.table.function ⟨5⟩ := by
  intro other
  have otherReachable : other.toManager.Reachable Call.isSafe :=
    (Session.reachable_fresh Call.isSafe).run _ (by decide)
  have known : Session.misled.contains ⟨5⟩ = true := by decide +kernel
  have otherKnown : other.contains ⟨5⟩ = true := by decide +kernel
  have same : Session.misled.bracket ⟨5⟩ = other.bracket ⟨5⟩ := by decide +kernel
  obtain ⟨_, determines⟩ :=
    bracket_of_reachable Session.reachable_misled otherReachable known otherKnown
  exact ⟨Session.reachable_misled, otherReachable, known, otherKnown, same, (determines same).2.2⟩

end DecisionDiagram
