import DecisionDiagram.Key
import DecisionDiagram.Node

/-!
# Events

What a manager reports about its work while it runs.  An event is data; its text and
its level are read off it, so a journal may keep events and decide later what to
print.
-/

namespace DecisionDiagram

/-- How much an event matters, from the rarest to the most frequent. -/
inductive Level where
  | warn
  | info
  | debug
  | trace
  deriving DecidableEq, Repr

namespace Level

/-- Levels as numbers: a journal that admits a level admits all smaller ones. -/
def rank : Level → Nat
  | .warn => 0
  | .info => 1
  | .debug => 2
  | .trace => 3

/-- The word that opens a line of this level. -/
def label : Level → String
  | .warn => "WARN"
  | .info => "INFO"
  | .debug => "DEBUG"
  | .trace => "TRACE"

end Level

/-- Something that happened in a manager. -/
inductive Event where
  /-- More slots were paid for than ids exist. -/
  | nodesClamped (bytes slots : Nat)
  /-- More entries were paid for than are supported. -/
  | memoCapped (bytes bits : Nat)
  /-- The unique table was reserved. -/
  | tableAllocated (slots bytes : Nat)
  /-- The computed table was reserved. -/
  | memoAllocated (entries bytes : Nat)
  /-- A manager came into being. -/
  | created (slots entries : Nat)
  /-- A manager became the shared one. -/
  | installed
  /-- A node was asked for. -/
  | make (var : Var) (low high : Ref)
  /-- The node asked for would not depend on its variable. -/
  | redundant (low high : Ref)
  /-- A negation began. -/
  | negate (operand : Ref)
  /-- A negation was remembered. -/
  | negateRecalled (operand result : Ref)
  /-- A connective was asked for. -/
  | apply (op : BinaryOp) (left right : Ref)
  /-- A connective was remembered. -/
  | applyRecalled (op : BinaryOp) (left right result : Ref)
  /-- A connective was worked out. -/
  | applyComputed (op : BinaryOp) (left right result : Ref)
  /-- A conjunction of a list was asked for. -/
  | conjoin
  /-- A disjunction of a list was asked for. -/
  | disjoin
  /-- An if-then-else began. -/
  | choose (condition yes no : Ref)
  /-- An if-then-else was remembered. -/
  | chooseRecalled (condition yes no result : Ref)
  /-- A result was looked for and not remembered. -/
  | missed (key : Key)
  deriving DecidableEq, Repr

namespace Event

/-- Adjusted budgets are warnings, lasting changes are information, and the steps of
the work are of interest to a reader who debugs; lookups without result are finer
still. -/
def level : Event → Level
  | .nodesClamped .. | .memoCapped .. => .warn
  | .created .. | .installed => .info
  | .missed _ => .trace
  | _ => .debug

def text : Event → String
  | .nodesClamped bytes slots =>
      s!"Unique table budget of {bytes} bytes exceeds the id space, clamping to {slots} slots"
  | .memoCapped bytes bits =>
      s!"Computed table budget of {bytes} bytes capped to 2^{bits} entries"
  | .tableAllocated slots bytes => s!"Allocated unique table of {slots} slots ({bytes} bytes)"
  | .memoAllocated entries bytes =>
      s!"Allocated computed table of {entries} entries ({bytes} bytes)"
  | .created slots entries =>
      s!"Created BDD manager: {slots} node slots, {entries} cache entries"
  | .installed => "Installed process-wide BDD manager"
  | .make var low high => s!"make(v = {var}, low = {low}, high = {high})"
  | .redundant low high => s!"make: duplicates {low} == {high}"
  | .negate operand => s!"apply_not(f = {operand})"
  | .negateRecalled operand result => s!"cache: apply_not(f = {operand}) -> {result}"
  | .apply op left right => "apply_" ++ op.verb ++ s!"(u = {left}, v = {right})"
  | .applyRecalled op left right result =>
      "cache: " ++ op.name ++ s!"(f = {left}, g = {right}) -> {result}"
  | .applyComputed op left right result =>
      "computed: " ++ op.name ++ s!"(f = {left}, g = {right}) -> {result}"
  | .conjoin => "apply_and_many(...)"
  | .disjoin => "apply_or_many(...)"
  | .choose condition yes no => s!"apply_ite(f = {condition}, g = {yes}, h = {no})"
  | .chooseRecalled condition yes no result =>
      s!"cache: apply_ite(f = {condition}, g = {yes}, h = {no}) -> {result}"
  | .missed key =>
      "missed: " ++ key.op.name ++ s!"({key.first}, {key.second}, {key.third})"

def line (event : Event) : String :=
  event.level.label ++ " " ++ event.text

end Event
end DecisionDiagram
