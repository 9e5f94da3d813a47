import NovelAsm.Location

/-!
Diagnostics: what every stage says about the text it reads. Nothing in the
assembler fails by an exception; a stage returns what it made and the list of
its diagnostics, in the order in which it met their causes, and the result is
good exactly when that list holds no error.
-/

namespace NovelAsm

inductive Severity where
  | error
  | warning
deriving DecidableEq, Repr

def Severity.name : Severity → String
  | .error => "error"
  | .warning => "warning"

/-- A second place that a diagnostic refers to. -/
structure Note where
  span : Span
  message : Bytes
deriving DecidableEq, Repr

structure Diagnostic where
  code : Bytes
  message : Bytes
  span : Span
  severity : Severity
  notes : List Note
deriving DecidableEq, Repr

namespace Diagnostic

def error (code : String) (message : Bytes) (span : Span) : Diagnostic :=
  ⟨ascii code, message, span, .error, []⟩

def warning (code : String) (message : Bytes) (span : Span) : Diagnostic :=
  ⟨ascii code, message, span, .warning, []⟩

/-- The diagnostic with one more note at its end. -/
def withNote (diagnostic : Diagnostic) (span : Span) (message : Bytes) : Diagnostic :=
  { diagnostic with notes := diagnostic.notes ++ [⟨span, message⟩] }

def isError (diagnostic : Diagnostic) : Bool := diagnostic.severity == .error

/-- Moves a diagnostic of a segment, its notes included, to its place in the file. -/
def rebase (diagnostic : Diagnostic) (base : Location) : Diagnostic :=
  { diagnostic with
    span := diagnostic.span.rebase base
    notes := diagnostic.notes.map fun note => { note with span := note.span.rebase base } }

/-- Where a span begins, as shown to a reader. -/
def formatPlace (span : Span) : Bytes :=
  ascii "L" ++ decimal span.start.line.toNat ++ ascii ":C" ++ decimal span.start.column.toNat

/-- One line for the diagnostic and one for each of its notes, without a final line feed. -/
def format (diagnostic : Diagnostic) : Bytes :=
  diagnostic.code ++ ascii " " ++ formatPlace diagnostic.span ++ ascii " -> "
    ++ diagnostic.message
    ++ diagnostic.notes.flatMap fun note =>
      ascii "\n    note " ++ formatPlace note.span ++ ascii " -> " ++ note.message

end Diagnostic

/-- The diagnostics of a run in the order of their reports. -/
abbrev Diagnostics := List Diagnostic

namespace Diagnostics

def hasErrors (diagnostics : Diagnostics) : Bool := diagnostics.any Diagnostic.isError

@[simp] theorem hasErrors_nil : hasErrors [] = false := rfl

@[simp] theorem hasErrors_append (diagnostics more : Diagnostics) :
    hasErrors (diagnostics ++ more) = (hasErrors diagnostics || hasErrors more) :=
  List.any_append

def errorCount (diagnostics : Diagnostics) : Nat := diagnostics.countP Diagnostic.isError

def warningCount (diagnostics : Diagnostics) : Nat :=
  diagnostics.length - errorCount diagnostics

def rebase (diagnostics : Diagnostics) (base : Location) : Diagnostics :=
  diagnostics.map (·.rebase base)

/-- The diagnostics of each severity that occurs, errors first. -/
def bySeverity (diagnostics : Diagnostics) : List (Severity × Diagnostics) :=
  [.error, .warning].filterMap fun severity =>
    match diagnostics.filter (·.severity == severity) with
    | [] => none
    | found => some (severity, found)

/-- Orders diagnostics by the byte at which they begin; those of one place keep their order. -/
def sortByPlace (diagnostics : Diagnostics) : Diagnostics :=
  diagnostics.mergeSort fun a b => a.span.start.offset ≤ b.span.start.offset

end Diagnostics

/-- A step that may add to the diagnostics of its run. -/
abbrev Reporting := StateM Diagnostics

def Reporting.report (diagnostic : Diagnostic) : Reporting PUnit :=
  modify (· ++ [diagnostic])

end NovelAsm
