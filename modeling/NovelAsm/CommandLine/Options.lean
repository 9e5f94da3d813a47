import NovelAsm.Literal.Address

/-!
The arguments of the command line. They are read from left to right, and the
first one that is wrong, or that asks for the help text or the version, ends the
reading. A later option of a kind takes the place of an earlier one.
-/

namespace NovelAsm

/-- What is done with each input. -/
inductive Task where
  | assemble
  | disassemble
  | showTokens
  | showTree
  | showListing
deriving DecidableEq, Repr

structure Options where
  task : Task
  inputs : List Bytes
  /-- The file that is written; without one, a name is made from the input's. -/
  output : Option Bytes
  base : UInt32
  entry : Option UInt32
  /-- How many workers may generate code at once. No answer depends on it. -/
  jobs : Nat
  verbose : Bool
  help : Bool
  version : Bool
deriving DecidableEq, Repr

inductive OptionProblem where
  | missingOutput
  | unknownOption (argument : Bytes)
  | missingInput
  | invalidAddress (text : Bytes)
  | invalidJobs (text : Bytes)
  | ambiguousOutput
deriving DecidableEq, Repr

/-- What is printed about a problem, with its line feed. -/
def OptionProblem.text : OptionProblem → Bytes
  | .missingOutput => ascii "SASM-E1000 MissingOutput: expected path after -o option.\n"
  | .unknownOption argument =>
      ascii "SASM-E1001 UnknownOption: unrecognised option '" ++ argument ++ ascii "'.\n"
  | .missingInput => ascii "SASM-E1002 MissingInput: an input file is required.\n"
  | .invalidAddress text =>
      ascii "SASM-E1003 InvalidAddress: '" ++ text ++ ascii "' is not a 32-bit address.\n"
  | .invalidJobs text =>
      ascii "SASM-E1004 InvalidJobs: '" ++ text ++ ascii "' is not a worker count (0..256).\n"
  | .ambiguousOutput =>
      ascii "SASM-E1005 AmbiguousOutput: -o needs a single input file.\n"

/-- What one argument says. -/
inductive ArgumentWord where
  | help
  | version
  | task (task : Task)
  | verbose
  | base (text : Bytes)
  | entry (text : Bytes)
  | jobs (text : Bytes)
  | output (path : Bytes)
  /-- The output is the next argument. -/
  | outputNext
  | unknown
  | input
deriving DecidableEq, Repr

namespace ArgumentWord

/-- The options that are written out in full. -/
def fixed : List (String × ArgumentWord) :=
  [ ("--help", .help),
    ("-h", .help),
    ("--version", .version),
    ("--disassemble", .task .disassemble),
    ("-d", .task .disassemble),
    ("--dump-tokens", .task .showTokens),
    ("--dump-tree", .task .showTree),
    ("--dump-mir", .task .showListing),
    ("--verbose", .verbose),
    ("-v", .verbose),
    ("-o", .outputNext) ]

/-- The options that a value follows at once. -/
def valued : List (String × (Bytes → ArgumentWord)) :=
  [ ("--base=", .base),
    ("--entry=", .entry),
    ("--jobs=", .jobs),
    ("--output=", .output),
    ("-o", .output) ]

/-- The option with its value in one argument. -/
def valued? (argument : Bytes) : Option ArgumentWord :=
  valued.findSome? fun (start, word) => (Bytes.after? (ascii start) argument).map word

def ofArgument (argument : Bytes) : ArgumentWord :=
  match fixed.find? fun (text, _) => ascii text == argument with
  | some (_, word) => word
  | none =>
      match valued? argument with
      | some word => word
      | none => if argument.head? == some (byte '-') then .unknown else .input

end ArgumentWord

namespace Options

/-- The options before any argument. -/
def initial : Options :=
  { task := .assemble
    inputs := []
    output := none
    base := 0
    entry := none
    jobs := 0
    verbose := false
    help := false
    version := false }

/-- The largest number of workers. -/
def jobLimit : Nat := 256

def readAddress (text : Bytes) : Except OptionProblem UInt32 :=
  match Literal.address? text with
  | some address => .ok address
  | none => .error (.invalidAddress text)

def readJobs (text : Bytes) : Except OptionProblem Nat :=
  match Literal.address? text with
  | some count => if count.toNat ≤ jobLimit then .ok count.toNat else .error (.invalidJobs text)
  | none => .error (.invalidJobs text)

/-- An empty path is the same as none. -/
def outputPath (path : Bytes) : Option Bytes := if path.isEmpty then none else some path

/-- What is asked of the arguments together. -/
def check (options : Options) : Except OptionProblem Options :=
  if options.inputs.isEmpty then .error .missingInput
  else if 1 < options.inputs.length && options.output.isSome then .error .ambiguousOutput
  else .ok options

/-- Reads arguments behind those that `options` was read from. -/
def readFrom (options : Options) : List Bytes → Except OptionProblem Options
  | [] => options.check
  | argument :: rest =>
      match ArgumentWord.ofArgument argument with
      | .help => .ok { options with help := true }
      | .version => .ok { options with version := true }
      | .task task => { options with task := task }.readFrom rest
      | .verbose => { options with verbose := true }.readFrom rest
      | .base text => do
          let base ← readAddress text
          { options with base := base }.readFrom rest
      | .entry text => do
          let entry ← readAddress text
          { options with entry := some entry }.readFrom rest
      | .jobs text => do
          let jobs ← readJobs text
          { options with jobs := jobs }.readFrom rest
      | .output path => { options with output := outputPath path }.readFrom rest
      | .outputNext =>
          match rest with
          | [] => .error .missingOutput
          | path :: rest => { options with output := outputPath path }.readFrom rest
      | .unknown => .error (.unknownOption argument)
      | .input => { options with inputs := options.inputs ++ [argument] }.readFrom rest

/-- Reads the arguments of a command line. -/
def read (arguments : List Bytes) : Except OptionProblem Options := initial.readFrom arguments

end Options

end NovelAsm
