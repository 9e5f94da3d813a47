import NovelAsm.CodeUnit.Lowering
import NovelAsm.Disassembly.Labels
import NovelAsm.Resolve.Routines
import NovelAsm.SyntaxTree.Parser

/-!
Whether the text of an instruction stands for exactly its bytes. Code can hold
what no source is assembled to: a number in a form that is longer than needed, a
flag that is neither zero nor one, terms that would be folded. So the text is
assembled at the place of its bytes, with the labels of the block around it, and
the outcome is compared.
-/

namespace NovelAsm

namespace CodeLabels

/-- The label of the script that the text is tried in. -/
def probeLabel : Bytes := ascii "__probe"

def declareLabel (scope : Scope) (name : Bytes) : Scope :=
  (scope.declare ⟨name, .label, 0, .origin⟩).1

/-- The names that the text can see. -/
def probeScope (labels : CodeLabels) : Scope :=
  labels.names.foldl (fun scope (_, name) => declareLabel scope name)
    (declareLabel .empty probeLabel)

/-- A script that holds an instruction alone. -/
def probeSource (text : Bytes) : Bytes := probeLabel ++ ascii ":\n    " ++ text ++ ascii "\n"

/-- The unit of the script around a text, unless the text has errors. -/
def probeUnit? (scope : Scope) (text : Bytes) : Option CodeUnit :=
  let parsed := ParsedSource.read (probeSource text) .origin
  let (routines, resolved) := Routine.resolve scope parsed.tree
  match routines with
  | [routine] =>
      let (unit, lowered) := routine.lower
      if (parsed.diagnostics ++ resolved ++ lowered).any Diagnostic.isError then none
      else some unit
  | _ => none

/-- What a text is assembled to at an offset, unless anything at all is reported about that. -/
def assemble? (labels : CodeLabels) (scope : Scope) (offset : Nat) (text : Bytes) :
    Option Bytes :=
  (probeUnit? scope text).bind fun unit =>
    let program :=
      LinkedProgram.link (labels.address offset) labels.externals [⟨unit.encode, .origin⟩]
    if program.diagnostics.isEmpty then some program.code else none

/-- Whether a text is assembled to the bytes of an entry at its place. -/
def reproduces (labels : CodeLabels) (scope : Scope) (entry : SweepEntry) (text : Bytes) : Bool :=
  labels.assemble? scope entry.offset text == some entry.bytes

end CodeLabels

end NovelAsm
