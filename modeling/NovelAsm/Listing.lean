import NovelAsm.CodeUnit.Lowering
import NovelAsm.Resolve.Definitions
import NovelAsm.Resolve.Routines
import NovelAsm.SyntaxTree.Parser

/-!
A source text as code units. The text is parsed as a whole; every later step
goes on with what the one before it could make of it, so all diagnostics of a
text are found at once. They are answered in the order of their places.
-/

namespace NovelAsm

structure Listing where
  units : List CodeUnit
  diagnostics : Diagnostics

namespace Listing

/-- The code units of a source text. -/
def ofSource (source : Bytes) : Listing :=
  let parsed := ParsedSource.read source .origin
  let (scope, declared) := Declarations.collect [⟨parsed.tree, .origin⟩]
  let (routines, resolved) := Routine.resolve scope parsed.tree
  let lowered := routines.map Routine.lower
  { units := lowered.map Prod.fst
    diagnostics :=
      (parsed.diagnostics ++ declared ++ resolved ++ lowered.flatMap Prod.snd).sortByPlace }

def succeeded (listing : Listing) : Bool := !listing.diagnostics.hasErrors

/-- The line that shows the fingerprint of a unit. -/
def fingerprintLine (unit : CodeUnit) : Bytes :=
  ascii "hash " ++ unit.name ++ ascii " 0x" ++ hex 16 unit.fingerprint.toNat ++ ascii "\n"

/-- The units as shown to a reader, each followed by its fingerprint. -/
def text (listing : Listing) : Bytes :=
  listing.units.flatMap fun unit => unit.listing ++ fingerprintLine unit

end Listing

end NovelAsm
