import NovelAsm.Code.Link
import NovelAsm.Memo
import NovelAsm.Resolve.Definitions
import NovelAsm.Resolve.Routines
import NovelAsm.CodeUnit.Lowering
import NovelAsm.Segment
import NovelAsm.SyntaxTree.Parser

/-!
Sessions: one source after another assembled at one base address, with the work
on unchanged segments kept. The tree of a segment depends on its text alone. Its
code depends on the text and on the names that the segment can see, so it is kept
together with the signature of the scope it was made in.

Segments are read as if each stood alone; their diagnostics and relocations are
moved to their places in the file when a program is put together. What a source
no longer uses is forgotten at the end.
-/

namespace NovelAsm

/-- How often a memo had an answer, and how often the work had to be done. -/
structure Tally where
  hits : Nat
  misses : Nat
deriving DecidableEq, Repr

namespace Tally

def zero : Tally := ⟨0, 0⟩

instance : Inhabited Tally := ⟨zero⟩

/-- Counts one question, given whether it was answered. -/
def count (tally : Tally) (answered : Bool) : Tally :=
  if answered then { tally with hits := tally.hits + 1 }
  else { tally with misses := tally.misses + 1 }

end Tally

/-- The tree of a segment with the text that it was read from. -/
structure KeptTree where
  text : Bytes
  parsed : ParsedSource

/-- The code of a segment with all that it was made from: the text, and the signature of the
scope. Its spans count from the segment. -/
structure KeptCode where
  text : Bytes
  signature : Fingerprint
  units : List EncodedUnit
  diagnostics : Diagnostics

namespace KeptCode

/-- Makes the code of a segment in a scope with the given signature. -/
def make (scope : Scope) (signature : Fingerprint) (kept : KeptTree) : KeptCode :=
  let (routines, resolved) := Routine.resolve scope kept.parsed.tree
  let lowered := routines.map Routine.lower
  { text := kept.text
    signature := signature
    units := lowered.map fun (unit, _) => unit.encode
    diagnostics := resolved ++ lowered.flatMap Prod.snd }

end KeptCode

/-- A segment of the source in hand with its tree. -/
structure ReadSegment where
  origin : Location
  key : Fingerprint
  kept : KeptTree

namespace ReadSegment

def placedTree (read : ReadSegment) : PlacedTree := ⟨read.kept.parsed.tree, read.origin⟩

/-- The key of the code of a segment in a scope. -/
def codeKey (read : ReadSegment) (signature : Fingerprint) : Fingerprint :=
  read.key.add (.word signature)

end ReadSegment

/-- Where the code of a segment comes from. -/
inductive CodeSource where
  /-- It was kept from an earlier source. -/
  | earlier (code : KeptCode)
  /-- It is made for a segment of this source that stands before this one. -/
  | shared
  /-- It is made for this segment. -/
  | made (code : KeptCode)

namespace CodeSource

def isMade : CodeSource → Bool
  | .made _ => true
  | _ => false

end CodeSource

structure Session where
  base : UInt32
  trees : Memo KeptTree
  codes : Memo KeptCode
  parses : Tally
  generations : Tally

namespace Session

def start (base : UInt32) : Session := ⟨base, .empty, .empty, .zero, .zero⟩

/-- The session with its counts set to zero; what it keeps stays. -/
def resetTallies (session : Session) : Session :=
  { session with parses := .zero, generations := .zero }

/-- Reads a segment, or finds its tree. -/
def readSegment (session : Session) (segment : Segment) : ReadSegment × Session :=
  let key := Fingerprint.ofText segment.text
  match (session.trees.find? key).filter (·.text == segment.text) with
  | some kept => (⟨segment.origin, key, kept⟩, { session with parses := session.parses.count true })
  | none =>
      let kept : KeptTree := ⟨segment.text, ParsedSource.read segment.text .origin⟩
      (⟨segment.origin, key, kept⟩,
        { session with
          trees := session.trees.put key kept
          parses := session.parses.count false })

def readSegments (session : Session) : List Segment → List ReadSegment × Session
  | [] => ([], session)
  | segment :: rest =>
      let (read, session) := session.readSegment segment
      let (reads, session) := session.readSegments rest
      (read :: reads, session)

/-- The code that was kept for a segment in a scope. -/
def keptCode? (session : Session) (signature : Fingerprint) (read : ReadSegment) :
    Option KeptCode :=
  (session.codes.find? (read.codeKey signature)).filter fun code =>
    code.text == read.kept.text && code.signature == signature

/-- Decides for each segment where its code comes from. `making` holds the segments before
them for which code is made. -/
def codeSources (session : Session) (scope : Scope) (signature : Fingerprint)
    (making : List ReadSegment) : List ReadSegment → List (ReadSegment × CodeSource)
  | [] => []
  | read :: rest =>
      match session.keptCode? signature read with
      | some code => (read, .earlier code) :: session.codeSources scope signature making rest
      | none =>
          if making.any fun other =>
              other.codeKey signature == read.codeKey signature
                && other.kept.text == read.kept.text then
            (read, .shared) :: session.codeSources scope signature making rest
          else
            (read, .made (KeptCode.make scope signature read.kept))
              :: session.codeSources scope signature (read :: making) rest

/-- Keeps the code that was made. -/
def keep (session : Session) (signature : Fingerprint)
    (sources : List (ReadSegment × CodeSource)) : Session :=
  sources.foldl
    (fun session (read, source) =>
      let session :=
        { session with generations := session.generations.count (!source.isMade) }
      match source with
      | .made code => { session with codes := session.codes.put (read.codeKey signature) code }
      | _ => session)
    session

/-- The code of a segment, once all code has been made and kept. -/
def codeOf? (session : Session) (signature : Fingerprint) (read : ReadSegment) :
    CodeSource → Option KeptCode
  | .earlier code | .made code => some code
  | .shared => session.codes.find? (read.codeKey signature)

/-- Forgets what the segments of the source in hand do not use. -/
def forgetUnused (session : Session) (signature : Fingerprint) (reads : List ReadSegment) :
    Session :=
  { session with
    trees := session.trees.retain (reads.map ReadSegment.key)
    codes := session.codes.retain (reads.map (·.codeKey signature)) }

/-- The diagnostics of a segment in its place: those of its tree, then those of its code. -/
def segmentDiagnostics (read : ReadSegment) (code : KeptCode) : Diagnostics :=
  read.kept.parsed.diagnostics.rebase read.origin ++ code.diagnostics.rebase read.origin

/-- The encoded units of a segment in its place. -/
def placedUnits (read : ReadSegment) (code : KeptCode) : List PlacedUnit :=
  code.units.map fun unit => ⟨unit, read.origin⟩

/-- Assembles a source. The diagnostics of the program are those of all steps, in the order of
their places. -/
def assemble (session : Session) (source : Bytes) : LinkedProgram × Session :=
  let (reads, session) := session.readSegments (Segment.split source)
  let (scope, declared) := Declarations.collect (reads.map ReadSegment.placedTree)
  let signature := scope.signature
  let sources := session.codeSources scope signature [] reads
  let session := session.keep signature sources
  let codes := sources.filterMap fun (read, source) =>
    (session.codeOf? signature read source).map fun code => (read, code)
  let program :=
    LinkedProgram.link session.base []
      (codes.flatMap fun (read, code) => placedUnits read code)
  let diagnostics : Diagnostics :=
    (codes.flatMap fun (read, code) => segmentDiagnostics read code)
      ++ declared ++ program.diagnostics
  ({ program with diagnostics := Diagnostics.sortByPlace diagnostics },
    session.forgetUnused signature reads)

end Session

namespace LinkedProgram

/-- Assembles a source by itself. -/
def ofSource (base : UInt32) (source : Bytes) : LinkedProgram :=
  ((Session.start base).assemble source).1

end LinkedProgram

end NovelAsm
