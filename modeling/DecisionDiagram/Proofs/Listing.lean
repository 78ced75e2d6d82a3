import DecisionDiagram.Proofs.Descendants
import DecisionDiagram.Proofs.Outline

/-!
# What a listing tells

A listing has one line for each descendant of its root, in breadth-first order with the branch
for a true variable first.  A line names its id with the constant or the decision that it stands
for, and all of that can be read back from the line, so the lines determine the diagram.  None
of this depends on what the store holds.
-/

namespace DecisionDiagram

/-! ## Reading a line -/

open Outline (skip? readNumber skip?_append readNumber_append readNumber_toString)

def Ref.read? (text : List Char) : Option (Ref × List Char) := do
  let rest ← skip? "@" text
  let (id, rest) := readNumber rest
  some (⟨id⟩, rest)

namespace Stop

/-- What the line of a stop says after the id. -/
def tail (stop : Stop) : String :=
  match stop.node? with
  | none => " = " ++ toString (stop.ref == .trueRef)
  | some node => s!" = x{node.var} ? {node.high} : {node.low}"

/-- The stop that a line was written for. -/
def read? (line : String) : Option Stop := do
  let rest ← skip? "  " line.toList
  let (ref, rest) ← Ref.read? rest
  if rest = (tail ⟨ref, none⟩).toList then some ⟨ref, none⟩
  else
    let rest ← skip? " = x" rest
    let (var, rest) := readNumber rest
    let rest ← skip? " ? " rest
    let (high, rest) ← Ref.read? rest
    let rest ← skip? " : " rest
    let (low, rest) ← Ref.read? rest
    if rest = [] then some ⟨ref, some ⟨var, low, high⟩⟩ else none

end Stop

theorem newline_notMem_toString (number : UInt32) : '\n' ∉ (toString number).toList := fun member =>
  absurd (Outline.isDigit_of_mem_toString member) (by decide)

theorem Ref.toList_toString (ref : Ref) :
    (toString ref).toList = "@".toList ++ (toString ref.id).toList := by
  rw [← String.toList_append]
  rfl

theorem Ref.newline_notMem_toString (ref : Ref) : '\n' ∉ (toString ref).toList := by
  rw [ref.toList_toString, List.mem_append, not_or]
  exact ⟨by decide, DecisionDiagram.newline_notMem_toString ref.id⟩

theorem Ref.read?_append (ref : Ref) {mark : Char} (ends : mark.isDigit = false)
    (rest : List Char) :
    Ref.read? ((toString ref).toList ++ mark :: rest) = some (ref, mark :: rest) := by
  rw [toList_toString, List.append_assoc, Ref.read?, skip?_append, Option.bind_eq_bind,
    Option.bind_some, readNumber_append ref.id ends]

theorem Ref.read?_toString (ref : Ref) : Ref.read? (toString ref).toList = some (ref, []) := by
  rw [toList_toString, Ref.read?, skip?_append, Option.bind_eq_bind, Option.bind_some,
    readNumber_toString]

namespace Stop

theorem toList_line (stop : Stop) :
    stop.line.toList = "  ".toList ++ ((toString stop.ref).toList ++ stop.tail.toList) := by
  have same : ∀ string : String, toString string = string := fun _ => rfl
  cases content : stop.node? <;> simp [line, tail, content, same]

theorem toList_tail_some (ref : Ref) (node : Node) :
    (tail ⟨ref, some node⟩).toList = " = x".toList ++ ((toString node.var).toList ++
      (" ? ".toList ++ ((toString node.high).toList ++ (" : ".toList ++
        (toString node.low).toList)))) := by
  have same : ∀ string : String, toString string = string := fun _ => rfl
  simp [tail, same]

theorem toList_tail_none (ref : Ref) :
    (tail ⟨ref, none⟩).toList =
      if ref == .trueRef then " = true".toList else " = false".toList := by
  unfold tail
  cases ref == .trueRef <;> rfl

/-- A decision is not taken for a constant. -/
theorem tail_some_ne (ref : Ref) (node : Node) :
    (tail ⟨ref, some node⟩).toList ≠ (tail ⟨ref, none⟩).toList := by
  rw [toList_tail_some, toList_tail_none]
  split <;> simp

/-- The id of a line ends where its tail begins. -/
theorem read?_toString_tail (stop : Stop) :
    Ref.read? ((toString stop.ref).toList ++ stop.tail.toList) =
      some (stop.ref, stop.tail.toList) := by
  have start : ∃ mark rest, mark.isDigit = false ∧ stop.tail.toList = mark :: rest := by
    obtain ⟨ref, node?⟩ := stop
    cases node? with
    | none =>
        rw [toList_tail_none]
        split <;> simp
    | some node => simp [toList_tail_some]
  obtain ⟨mark, rest, ends, begins⟩ := start
  rw [begins, stop.ref.read?_append ends]

/-- A line can be read back. -/
theorem read?_line (stop : Stop) : read? stop.line = some stop := by
  rw [read?, toList_line]
  simp only [skip?_append, read?_toString_tail, Option.bind_eq_bind, Option.bind_some]
  obtain ⟨ref, node?⟩ := stop
  cases node? with
  | none => exact if_pos rfl
  | some node =>
      have varRead : ∀ more, readNumber ((toString node.var).toList ++ (" ? ".toList ++ more)) =
          (node.var, " ? ".toList ++ more) := fun _ => readNumber_append node.var (by decide) _
      have highRead : ∀ more, Ref.read? ((toString node.high).toList ++ (" : ".toList ++ more)) =
          some (node.high, " : ".toList ++ more) := fun _ => node.high.read?_append (by decide) _
      rw [if_neg (tail_some_ne ref node), toList_tail_some]
      simp only [skip?_append, varRead, highRead, Ref.read?_toString, Option.bind_some, ↓reduceIte]

theorem newline_notMem_tail (stop : Stop) : '\n' ∉ stop.tail.toList := by
  obtain ⟨ref, node?⟩ := stop
  cases node? with
  | none =>
      rw [toList_tail_none]
      split <;> decide
  | some node =>
      simp [toList_tail_some, newline_notMem_toString, Ref.newline_notMem_toString]

/-- A line is not broken. -/
theorem newline_notMem_line (stop : Stop) : '\n' ∉ stop.line.toList := by
  simp [toList_line, stop.newline_notMem_tail, stop.ref.newline_notMem_toString]

theorem line_injective : Function.Injective line := fun first second same =>
  Option.some.inj (by rw [← read?_line first, same, read?_line second])

/-- The text of a listing: a heading, then one line for each stop. -/
def listing (name : String) (root : Ref) (stops : List Stop) : String :=
  "\n".intercalate ((name ++ s!" (root {root}):") :: stops.map line) ++ "\n"

/-- What follows the name in the heading of a listing. -/
def heading (root : Ref) : String :=
  s!" (root {root}):"

theorem toList_heading (root : Ref) :
    (heading root).toList = " (root ".toList ++ ((toString root).toList ++ "):".toList) := by
  have same : ∀ string : String, toString string = string := fun _ => rfl
  simp [heading, same]

theorem toList_listing (name : String) (root : Ref) (stops : List Stop) :
    (listing name root stops).toList = name.toList ++
      (['\n'].intercalate ((heading root).toList :: stops.map (·.line.toList)) ++ ['\n']) := by
  rw [listing, ← heading]
  cases stops <;> simp [String.toList_intercalate, List.intercalate, Function.comp_def]

/-- What follows the name in a listing falls into its lines. -/
theorem splitOn_listing (root : Ref) (stops : List Stop) :
    (['\n'].intercalate ((heading root).toList :: stops.map (·.line.toList))).splitOn '\n' =
      (heading root).toList :: stops.map (·.line.toList) := by
  apply List.splitOn_intercalate '\n' _ (List.cons_ne_nil _ _)
  intro line member
  rcases List.mem_cons.1 member with rfl | later
  · simp [toList_heading, Ref.newline_notMem_toString]
  · obtain ⟨stop, _, rfl⟩ := List.mem_map.1 later
    exact stop.newline_notMem_line

/-- Listings with the same name and the same text have the same lines. -/
theorem eq_of_listing_eq {name : String} {root otherRoot : Ref} {stops others : List Stop}
    (same : listing name root stops = listing name otherRoot others) : stops = others := by
  have texts := congrArg String.toList same
  rw [toList_listing, toList_listing] at texts
  have lines := congrArg (List.splitOn '\n')
    (List.append_cancel_right (List.append_cancel_left texts))
  rw [splitOn_listing, splitOn_listing] at lines
  have injective : Function.Injective fun stop : Stop => stop.line.toList :=
    fun first second equal => line_injective (String.toList_injective equal)
  exact injective.list_map (List.cons.inj lines).2

end Stop

namespace Manager

variable {manager : Manager} {branches others : Node → List Ref} {roots queue refs : List Ref}
variable {root ref parent : Ref} {before after order reached : List Ref}
variable {seen : Std.TreeSet UInt32} {stops : List Stop} {steps : Nat}

/-! ## Breadth-first order -/

/-- The ref at each place is the next new one among the roots and the branches of the refs at
earlier places, in this order. -/
def BreadthFirst (manager : Manager) (branches : Node → List Ref) (roots refs : List Ref) : Prop :=
  ∀ place : Nat, refs[place]? =
    (roots ++ (refs.take place).flatMap (manager.onward branches)).eraseDups[place]?

/-- Breadth-first order leaves no choice. -/
theorem BreadthFirst.unique (first : manager.BreadthFirst branches roots refs)
    (second : manager.BreadthFirst branches roots order) : order = refs := by
  have same : ∀ place, order.take place = refs.take place := by
    intro place
    induction place with
    | zero => rfl
    | succ place ih => rw [List.take_add_one, List.take_add_one, first, second, ih]
  exact List.ext_getElem? fun place => by rw [first, second, same]

theorem BreadthFirst.head? (ordered : manager.BreadthFirst branches [root] refs) :
    refs.head? = some root := by
  rw [List.head?_eq_getElem?, ordered 0]
  rfl

/-- What is not a root comes after one whose branch it is. -/
theorem BreadthFirst.exists_parent
    (ordered : manager.BreadthFirst branches roots (before ++ ref :: after)) :
    ref ∈ roots ∨ ∃ parent ∈ before, ref ∈ manager.onward branches parent := by
  have place := ordered before.length
  rw [List.getElem?_append_right le_rfl, Nat.sub_self, List.getElem?_cons_zero,
    List.take_left] at place
  have member := List.mem_eraseDups.1 (List.mem_of_getElem? place.symm)
  rwa [List.mem_append, List.mem_flatMap] at member

/-- The new refs of a queue after some ids were seen, each once. -/
def unseenIn (seen : Std.TreeSet UInt32) (queue : List Ref) : List Ref :=
  (queue.filter fun ref => ref.id ∉ seen).eraseDups

theorem unseenIn_empty (queue : List Ref) : unseenIn ∅ queue = queue.eraseDups := by
  simp [unseenIn]

theorem unseenIn_cons_of_mem (earlier : ref.id ∈ seen) (queue : List Ref) :
    unseenIn seen (ref :: queue) = unseenIn seen queue := by
  simp [unseenIn, earlier]

theorem unseenIn_cons_of_notMem (new : ref.id ∉ seen) (queue : List Ref) :
    unseenIn seen (ref :: queue) = ref :: unseenIn (seen.insert ref.id) queue := by
  simp only [unseenIn, List.filter_cons, decide_eq_true new, ↓reduceIte, List.eraseDups_cons,
    List.filter_filter]
  refine congrArg (ref :: ·.eraseDups) (List.filter_congr fun other _ => ?_)
  rw [Bool.eq_iff_iff]
  simp only [Bool.and_eq_true, Bool.not_eq_true', beq_eq_false_iff_ne, decide_eq_true_iff,
    mem_insert_seen, not_or]

/-- Each stop is at what is new next in a queue and in the branches of the stops before. -/
def TakesNext (manager : Manager) (branches : Node → List Ref) (queue : List Ref)
    (seen : Std.TreeSet UInt32) (stops : List Stop) : Prop :=
  ∀ place : Nat, (visited stops)[place]? = (unseenIn seen
    (queue ++ ((visited stops).take place).flatMap (manager.onward branches)))[place]?

theorem takesNext_nil (manager : Manager) (branches : Node → List Ref)
    (seen : Std.TreeSet UInt32) : manager.TakesNext branches [] seen [] := by
  intro place
  simp [visited, unseenIn]

theorem TakesNext.skip (earlier : ref.id ∈ seen)
    (next : manager.TakesNext branches queue seen stops) :
    manager.TakesNext branches (ref :: queue) seen stops := by
  intro place
  rw [next, List.cons_append, unseenIn_cons_of_mem earlier]

theorem TakesNext.visit (new : ref.id ∉ seen)
    (next : manager.TakesNext branches (queue ++ manager.onward branches ref)
      (seen.insert ref.id) stops) :
    manager.TakesNext branches (ref :: queue) seen (⟨ref, manager.table.node? ref⟩ :: stops) := by
  intro place
  rw [List.cons_append, unseenIn_cons_of_notMem new]
  cases place with
  | zero => rfl
  | succ place =>
      change (visited stops)[place]? = _
      rw [next, List.append_assoc]
      rfl

theorem takesNext_of_walkWithin
    (walked : manager.walkWithin branches steps queue seen = .ok stops) :
    manager.TakesNext branches queue seen stops :=
  walkWithin_induction (manager.takesNext_nil branches) .skip (fun new _ => .visit new) walked

theorem breadthFirst_of_walk (walked : manager.walk branches roots = .ok stops) :
    manager.BreadthFirst branches roots (visited stops) := by
  intro place
  rw [takesNext_of_walkWithin walked, unseenIn_empty]

/-! ## Listings -/

/-- The order of branches does not matter for what is reached. -/
theorem Reaches.of_branches (subset : ∀ node, branches node ⊆ others node)
    (reaches : manager.Reaches branches roots ref) : manager.Reaches others roots ref := by
  induction reaches with
  | root member => exact .root member
  | branch _ content branch reached => exact .branch reached content (subset _ branch)

theorem reaches_highFirst_iff :
    manager.Reaches Node.highFirst roots ref ↔ manager.Reaches Node.lowFirst roots ref := by
  constructor <;> refine Reaches.of_branches fun node => ?_ <;>
    simp [Node.highFirst, Node.lowFirst]

theorem print_eq (manager : Manager) (root : Ref) (name : String) :
    manager.print root name =
      (manager.walk Node.highFirst [root]).map (Stop.listing name root) := by
  rw [print, listing]
  cases manager.walk Node.highFirst [root] <;> rfl

/-- The stop of a walk at an id. -/
def stop (manager : Manager) (ref : Ref) : Stop :=
  ⟨ref, manager.table.node? ref⟩

theorem Visits.eq_map_stop (visits : manager.Visits branches queue seen stops) :
    stops = (visited stops).map manager.stop := by
  have kept : ∀ stop ∈ stops, manager.stop stop.ref = stop := fun stop member => by
    rw [Manager.stop, ← visits.contents stop member]
  rw [visited, List.map_map]
  exact (List.map_congr_left kept).trans (List.map_id' stops) |>.symm

/-- The stops of a walk tell the contents of what was visited. -/
theorem Visits.node?_eq {other : Manager} {otherQueue : List Ref}
    (visits : manager.Visits branches queue seen stops)
    (otherVisits : other.Visits branches otherQueue seen stops) (member : ref ∈ visited stops) :
    other.table.node? ref = manager.table.node? ref := by
  obtain ⟨stop, stopped, rfl⟩ := List.mem_map.1 member
  rw [← visits.contents stop stopped, otherVisits.contents stop stopped]

/-- A listing and the descendants exist together. -/
theorem exists_print_iff (searchable : manager.table.Searchable) (root : Ref) (name : String) :
    (∃ text, manager.print root name = .ok text) ↔
      ∃ reached, manager.descendants [root] = .ok reached := by
  have mapped : ∀ {α β : Type} (function : α → β) (result : Except Failure α),
      (∃ image, result.map function = .ok image) ↔ ∃ value, result = .ok value := by
    intro α β function result
    cases result <;> simp [Except.map]
  rw [print_eq, descendants, mapped, mapped, exists_walk_iff searchable fun _ => rfl,
    exists_walk_iff searchable fun _ => rfl]
  simp only [reaches_highFirst_iff]

/-- The walk of a listing visits the descendants. -/
theorem perm_visited_of_descendants (walked : manager.walk Node.highFirst roots = .ok stops)
    (listed : manager.descendants roots = .ok reached) : (visited stops).Perm reached := by
  obtain ⟨lowStops, lowWalked, rfl⟩ := exists_walk_of_descendants listed
  have visits := visits_of_walkWithin walked
  have lowVisits := visits_of_walkWithin lowWalked
  refine List.Perm.trans ?_ (List.mergeSort_perm _ _).symm
  refine (List.perm_ext_iff_of_nodup visits.nodup lowVisits.nodup).2 fun ref => ?_
  rw [mem_visited_iff visits, mem_visited_iff lowVisits, reaches_highFirst_iff]

/-- A text was printed for the stops of a walk. -/
theorem exists_walk_of_print {name text : String} (printed : manager.print root name = .ok text) :
    ∃ stops, manager.walk Node.highFirst [root] = .ok stops ∧
      text = Stop.listing name root stops := by
  rw [print_eq] at printed
  cases walked : manager.walk Node.highFirst [root] with
  | error failure =>
      rw [walked] at printed
      cases printed
  | ok stops =>
      rw [walked] at printed
      cases printed
      exact ⟨stops, rfl, rfl⟩

/-- Managers that print the same listing hold the same nodes below the same root. -/
theorem eq_of_print_eq {left right : Manager} {start : Ref} {name text : String}
    (leftSearchable : left.table.Searchable) (rightSearchable : right.table.Searchable)
    (leftPrinted : left.print root name = .ok text)
    (rightPrinted : right.print start name = .ok text) :
    start = root ∧ ∃ reached, left.descendants [root] = .ok reached ∧
      right.descendants [start] = .ok reached ∧
      ∀ ref ∈ reached, right.table.node? ref = left.table.node? ref := by
  obtain ⟨stops, leftWalked, rfl⟩ := exists_walk_of_print leftPrinted
  obtain ⟨others, rightWalked, same⟩ := exists_walk_of_print rightPrinted
  obtain rfl := Stop.eq_of_listing_eq same
  obtain ⟨reached, leftListed⟩ :=
    (exists_print_iff leftSearchable root name).1 ⟨_, leftPrinted⟩
  obtain ⟨rightReached, rightListed⟩ :=
    (exists_print_iff rightSearchable start name).1 ⟨_, rightPrinted⟩
  have leftPermuted := perm_visited_of_descendants leftWalked leftListed
  have rightPermuted := perm_visited_of_descendants rightWalked rightListed
  obtain rfl := descendants_unique rightListed leftListed (rightPermuted.symm.trans leftPermuted)
  refine ⟨?root, rightReached, leftListed, rightListed, ?contents⟩
  case root =>
    have first := (breadthFirst_of_walk rightWalked).head?
    rw [(breadthFirst_of_walk leftWalked).head?] at first
    exact (Option.some.inj first).symm
  case contents =>
    intro ref member
    exact (visits_of_walkWithin leftWalked).node?_eq (visits_of_walkWithin rightWalked)
      (leftPermuted.mem_iff.2 member)

end Manager

end DecisionDiagram
