import NovelAsm.CommandLine.Options
import NovelAsm.CommandLine.Surroundings
import NovelAsm.Disassembly
import NovelAsm.Listing
import NovelAsm.Session

/-!
The command line: reads its arguments and does what they ask with each input in
turn. All inputs of a run share one session, so a segment that two of them have
in common is compiled once. An input that fails does not keep the next ones from
being tried; the exit code tells whether all succeeded.
-/

namespace NovelAsm

namespace CommandLine

def helpText : Bytes := ascii <| String.join
  [ "sceneasmc - scenario VM assembler and disassembler\n",
    "Usage: sceneasmc [options] <input>...\n\n",
    "Options:\n",
    "  --help                 Show this help text and exit.\n",
    "  --version              Show version information and exit.\n",
    "  --disassemble, -d      Turn a code block back into assembly.\n",
    "  --dump-tokens          Print the token stream of each input.\n",
    "  --dump-tree            Print the syntax tree of each input.\n",
    "  --dump-mir             Print the selected instructions of each unit with their hashes.\n",
    "  --base=<addr>          Address of the first byte. Default: 0.\n",
    "  --entry=<addr>         Entry address for --disassemble. Default: base.\n",
    "  --jobs=<n>             Worker threads for code generation. Default: all cores.\n",
    "  --verbose, -v          Print symbol addresses and cache statistics.\n",
    "  -o <path>              Write output to the specified path.\n" ]

def versionText : Bytes := ascii "sceneasmc (build profile: local)\n"

/-- A text between quotation marks, as paths and lexemes are shown. -/
def quoted (text : Bytes) : Bytes := ascii "'" ++ text ++ ascii "'"

def addressText (address : UInt32) : Bytes := ascii "0x" ++ hex 8 address.toNat

/-- Where the result for an input goes that has no output of its own. -/
def outputOf (options : Options) (input : Bytes) : Bytes :=
  options.output.getD (Path.withExtension input (ascii ".bin"))

/-- The lines about diagnostics. -/
def diagnosticLines (diagnostics : Diagnostics) : Bytes :=
  diagnostics.flatMap fun diagnostic => diagnostic.format ++ ascii "\n"

/-- What a verbose run prints before its work. -/
def opening (options : Options) : Bytes :=
  ascii "[information] Starting sceneasmc.\n"
    ++ ascii "  base: " ++ addressText options.base ++ ascii "\n"
    ++ (options.output.toList.flatMap fun path => ascii "  output: " ++ path ++ ascii "\n")
    ++ options.inputs.flatMap fun path => ascii "  input: " ++ path ++ ascii "\n"

/-- A token with its place. Line feeds and the end of the file have no text to show. -/
def tokenLine (token : Token) : Bytes :=
  ascii "    " ++ ascii token.kind.name ++ ascii " @ " ++ Diagnostic.formatPlace token.span
    ++ (if token.text.isEmpty || token.kind == .newline then []
      else ascii " -> " ++ quoted token.text)
    ++ ascii "\n"

/-- What a task says about an input: the text it prints, and its diagnostics. -/
structure Report where
  text : Bytes
  diagnostics : Diagnostics
deriving DecidableEq, Repr

namespace Report

def succeeded (report : Report) : Bool := !report.diagnostics.hasErrors

def ofTokens (path content : Bytes) : Report :=
  let lexed := Lexed.read content .origin
  { text := ascii "[notice] Lexed " ++ decimal lexed.all.length ++ ascii " tokens from "
      ++ quoted path ++ ascii ".\n" ++ lexed.all.flatMap tokenLine
    diagnostics := lexed.diagnostics }

def ofTree (path content : Bytes) : Report :=
  let parsed := ParsedSource.read content .origin
  { text := ascii "[notice] Syntax tree of " ++ quoted path ++ ascii ":\n" ++ parsed.tree.dump 0
    diagnostics := parsed.diagnostics }

def ofListing (path content : Bytes) : Report :=
  let listing := Listing.ofSource content
  { text := ascii "[notice] MIR of " ++ quoted path ++ ascii " lowered with "
      ++ decimal listing.units.length ++ ascii " unit(s).\n" ++ listing.text
    diagnostics := listing.diagnostics }

end Report

/-- What is printed about a program that was written to a file. -/
def assembledText (path output : Bytes) (program : LinkedProgram) : Bytes :=
  ascii "[notice] Assembled " ++ quoted path ++ ascii " into " ++ decimal program.code.length
    ++ ascii " bytes at " ++ addressText program.base ++ ascii " (entry "
    ++ addressText program.entry ++ ascii ") -> " ++ output ++ ascii "\n"

def symbolLines (symbols : NameMap UInt32) : Bytes :=
  symbols.entries.flatMap fun (name, address) =>
    ascii "[debug]   " ++ addressText address ++ ascii " " ++ name ++ ascii "\n"

def tallyText (tally : Tally) : Bytes :=
  decimal tally.hits ++ ascii " hit(s) / " ++ decimal tally.misses ++ ascii " miss(es)"

def tallyLine (session : Session) : Bytes :=
  ascii "[debug] Cache: parse " ++ tallyText session.parses ++ ascii ", code "
    ++ tallyText session.generations ++ ascii ".\n"

/-- What a verbose run prints about a program. -/
def programDetails (program : LinkedProgram) (session : Session) : Bytes :=
  symbolLines program.symbols ++ tallyLine session

/-- What a verbose run prints about a disassembly. -/
def disassemblyDetails (disassembly : Disassembly) : Bytes :=
  ascii "[debug] " ++ decimal disassembly.instructionCount ++ ascii " instruction(s), "
    ++ decimal disassembly.rawByteCount ++ ascii " raw byte(s).\n"

def readFailure (path : Bytes) : Bytes :=
  ascii "SASM-E1010 InputReadFailed: unable to open " ++ quoted path ++ ascii ".\n"

def halted (path : Bytes) : Bytes :=
  ascii "SASM-W1011 AssemblyHalted: no output written for " ++ quoted path ++ ascii ".\n"

def writeFailure (path : Bytes) : Bytes :=
  ascii "SASM-E1012 OutputWriteFailed: unable to write " ++ quoted path ++ ascii ".\n"

variable {m : Type → Type} [Monad m]

/-- Writes a file. If that fails, it is complained about and nothing else is done. -/
def writeThen (world : Surroundings m) (path content : Bytes) (next : m PUnit) : m Bool := do
  if ← world.write path content then
    next
    return true
  else
    world.complain (writeFailure path)
    return false

/-- Prints a report. -/
def present (world : Surroundings m) (report : Report) : m Bool := do
  world.print report.text
  world.complain (diagnosticLines report.diagnostics)
  return report.succeeded

/-- Assembles an input and writes its code, unless it has errors. -/
def assemble (world : Surroundings m) (options : Options) (session : Session)
    (path content : Bytes) : m (Bool × Session) := do
  let (program, session) := session.assemble content
  world.complain (diagnosticLines program.diagnostics)
  if program.succeeded then
    let output := outputOf options path
    let written ← writeThen world output program.code do
      world.print (assembledText path output program)
      if options.verbose then world.print (programDetails program session)
    return (written, session)
  else
    world.complain (halted path)
    return (false, session)

/-- Disassembles an input, to a file if there is an output. -/
def disassemble (world : Surroundings m) (options : Options) (path content : Bytes) :
    m Bool := do
  let disassembly := Disassembly.ofCode content options.base options.entry
  world.complain (diagnosticLines disassembly.diagnostics)
  let details := if options.verbose then disassemblyDetails disassembly else []
  match options.output with
  | none =>
      world.print (disassembly.text ++ details)
      return true
  | some output =>
      writeThen world output disassembly.text do
        world.print (ascii "[notice] Disassembled " ++ quoted path ++ ascii " -> " ++ output
          ++ ascii "\n" ++ details)

/-- Does the task of a run with one input. -/
def perform (world : Surroundings m) (options : Options) (session : Session)
    (path content : Bytes) : m (Bool × Session) := do
  match options.task with
  | .assemble => assemble world options session path content
  | .disassemble => return (← disassemble world options path content, session)
  | .showTokens => return (← present world (.ofTokens path content), session)
  | .showTree => return (← present world (.ofTree path content), session)
  | .showListing => return (← present world (.ofListing path content), session)

/-- Does the task with inputs in turn. The answer tells whether all succeeded. -/
def performAll (world : Surroundings m) (options : Options) (session : Session) :
    List Bytes → m Bool
  | [] => return true
  | path :: rest => do
      match ← world.read path with
      | none =>
          world.complain (readFailure path)
          let _ ← performAll world options session rest
          return false
      | some content =>
          let (succeeded, session) ← perform world options session path content
          let others ← performAll world options session rest
          return succeeded && others

/-- A run with options that ask for no text about the program itself. -/
def runOptions (world : Surroundings m) (options : Options) : m Bool := do
  if options.verbose then world.print (opening options)
  performAll world options (Session.start options.base) options.inputs

/-- A run. The answer tells whether it succeeded. -/
def run (world : Surroundings m) (arguments : List Bytes) : m Bool := do
  match Options.read arguments with
  | .error problem =>
      world.complain problem.text
      return false
  | .ok options =>
      if options.help then
        world.print helpText
        return true
      else if options.version then
        world.print versionText
        return true
      else runOptions world options

/-- The exit code of a run. -/
def exitCode (succeeded : Bool) : UInt32 := if succeeded then 0 else 1

end CommandLine

end NovelAsm
