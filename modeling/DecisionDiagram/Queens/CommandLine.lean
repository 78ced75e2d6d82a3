import DecisionDiagram.Queens.Game

/-!
# The command line of the queens solver

The solver takes the size of the board as an argument and the sizes of the tables as
options.  Arguments are read from left to right: the first one that is wrong, or that
asks for help or for the version, settles what happens.
-/

namespace DecisionDiagram.Queens

/-- What the arguments ask for. -/
inductive Request where
  | solve (settings : Settings)
  | showHelp
  | showVersion
  /-- The arguments are wrong. -/
  | refuse
  deriving DecidableEq, Repr

namespace CommandLine

/-- The settings given so far; each may be given once. -/
structure Given where
  n : Option Nat := none
  nodeMebibytes : Option Nat := none
  memoMebibytes : Option Nat := none
  deriving Repr

namespace Given

def settings (given : Given) : Settings :=
  let defaults : Settings := {}
  { n := given.n.getD defaults.n
    nodeMebibytes := given.nodeMebibytes.getD defaults.nodeMebibytes
    memoMebibytes := given.memoMebibytes.getD defaults.memoMebibytes }

end Given

def digits? : List Char → Option Nat
  | [] => none
  | digits => digits.foldlM (fun value digit =>
      if digit.isDigit then some (value * 10 + (digit.toNat - '0'.toNat)) else none) 0

/-- A natural number of 64 bits: decimal digits, with a plus sign allowed in front. -/
def number? (text : String) : Option Nat := do
  let value ← match text.toList with
    | '+' :: rest => digits? rest
    | digits => digits? digits
  if value < UInt64.size then some value else none

/-- The size of the board, if it was not given before. -/
def giveSize (given : Given) (text : String) : Option Given := do
  match given.n with
  | some _ => none
  | none => some { given with n := some (← number? text) }

/-- The value of an option, if it was not given before.  There are two options. -/
def giveOption (given : Given) (name value : String) : Option Given := do
  let mebibytes ← number? value
  match name, given.nodeMebibytes, given.memoMebibytes with
  | "node-mb", none, _ => some { given with nodeMebibytes := some mebibytes }
  | "cache-mb", _, none => some { given with memoMebibytes := some mebibytes }
  | _, _, _ => none

/-- Whether an argument has the form of an option, not of a value. -/
def looksLikeOption (text : String) : Bool :=
  match text.toList with
  | '-' :: _ :: _ => true
  | _ => false

/-- An option without its dashes: its name, and its value if one is attached. -/
def splitOption (name : List Char) : String × Option String :=
  match name.dropWhile (· ≠ '=') with
  | [] => (String.ofList name, none)
  | _ :: value => (String.ofList (name.takeWhile (· ≠ '=')), some (String.ofList value))

/-- Read arguments that follow the mark for "no more options". -/
def readValues (given : Given) : List String → Request
  | [] => .solve given.settings
  | text :: rest =>
      match giveSize given text with
      | some given => readValues given rest
      | none => .refuse

/-- Read arguments from left to right. -/
def read (given : Given) : List String → Request
  | [] => .solve given.settings
  | text :: rest =>
      match text.toList with
      | ['-', '-'] => readValues given rest
      | '-' :: '-' :: name =>
          match splitOption name with
          | (name, some value) =>
              match giveOption given name value with
              | some given => read given rest
              | none => .refuse
          | (name, none) =>
              if name = "help" then .showHelp
              else if name = "version" then .showVersion
              else
                match rest with
                | [] => .refuse
                | value :: rest =>
                    if looksLikeOption value then .refuse
                    else
                      match giveOption given name value with
                      | some given => read given rest
                      | none => .refuse
      | '-' :: 'h' :: _ => .showHelp
      | '-' :: 'V' :: _ => .showVersion
      | '-' :: _ :: _ => .refuse
      | _ =>
          match giveSize given text with
          | some given => read given rest
          | none => .refuse

def request (arguments : List String) : Request :=
  read {} arguments

def version : String := "hermes-bdd 0.1.0"

def help : List String :=
  ["Usage: queens [OPTIONS] [INT]",
   "",
   "Arguments:",
   "  [INT]  Number of queens [default: 8]",
   "",
   "Options:",
   "      --node-mb <INT>   Unique table size in MiB [default: 256]",
   "      --cache-mb <INT>  Computed table size in MiB [default: 512]",
   "  -h, --help            Print help",
   "  -V, --version         Print version"]

/-- The lines that a run prints and the number that it ends with. -/
structure Result where
  exitCode : Nat
  lines : List String
  deriving DecidableEq, Repr

/-- The number that a run ends with when it fails: 1 for an error that the manager
reports, 101 when the run is broken off. -/
def exitCodeOf : Failure → Nat
  | .error _ => 1
  | .defect _ | .tooDeep => 101

def run (limit : Nat) (arguments : List String) : Result :=
  match request arguments with
  | .showHelp => ⟨0, help⟩
  | .showVersion => ⟨0, [version]⟩
  | .refuse => ⟨2, []⟩
  | .solve settings =>
      match (solve limit settings).run [] with
      | .ok _ lines => ⟨0, lines⟩
      | .error failure lines => ⟨exitCodeOf failure, lines⟩

end CommandLine
end DecisionDiagram.Queens
