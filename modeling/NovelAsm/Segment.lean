import NovelAsm.Location
import NovelAsm.Token

/-!
Segments: a source file cut into its top-level items, without lexing it. Each
segment is compiled alone and its result is kept for as long as its text does
not change, so the cut has to be cheap; it reads the text line by line and knows
just enough about comments, strings and continuations not to be fooled by them.

A segment begins at a line that opens an item: a function, a subroutine, a
definition or a label. Inside a function or subroutine nothing opens an item
until its closing word has been seen. The segments put together are the file.
-/

namespace NovelAsm

structure Segment where
  text : Bytes
  origin : Location
deriving DecidableEq, Repr

namespace Segment

/-- The lines of a text, each with its line feed; the last one may have none. -/
def lines : Bytes → List Bytes
  | [] => []
  | b :: rest =>
      if b == byte '\n' then [b] :: lines rest
      else
        match lines rest with
        | [] => [[b]]
        | line :: more => (b :: line) :: more

/-- A line without its line feed. -/
def content (line : Bytes) : Bytes := line.takeWhile (· != byte '\n')

/-- What a line begins with: a word, unless that starts with a digit, and whether a colon
follows it. -/
structure Head where
  word : Bytes
  isLabel : Bool
deriving DecidableEq, Repr

def isGap (b : UInt8) : Bool := b == byte ' ' || b == byte '\t'

def readHead (line : Bytes) : Head :=
  let line := line.dropWhile isGap
  let word := line.takeWhile Byte.isNamePart
  if word.head?.all Byte.isDigit then ⟨[], false⟩
  else
    let behind := (line.dropWhile Byte.isNamePart).dropWhile isGap
    ⟨word, behind.head? == some (byte ':')⟩

namespace Head

def keyword? (head : Head) : Option Keyword := Keyword.ofText? head.word

def opensItem (head : Head) : Bool :=
  head.isLabel || [some .function, some .subroutine, some .definition].contains head.keyword?

/-- The word that closes the body which a line opens. -/
def closer? (head : Head) : Option Keyword :=
  match head.keyword? with
  | some .function => some .endFunction
  | some .subroutine => some .endSubroutine
  | _ => none

end Head

/-- What the bytes of a line belong to: code, a string, or a comment inside `depth` others. -/
inductive Mode where
  | code
  | string
  | comment (depth : Nat)
deriving DecidableEq, Repr

/-- Strings end with their line. -/
def Mode.atLineEnd : Mode → Mode
  | .string => .code
  | mode => mode

/-- Reads a line. The answer is the mode in which the next line begins, and whether a
backslash joins that line to this one. -/
def scanLine (mode : Mode) : Bytes → Mode × Bool
  | [] => (mode.atLineEnd, false)
  | [b] => (mode.atLineEnd, mode == .code && b == byte '\\')
  | a :: b :: rest =>
      match mode with
      | .comment depth =>
          if a == byte '/' && b == byte '*' then scanLine (.comment (depth + 1)) rest
          else if a == byte '*' && b == byte '/' then
            match depth with
            | 0 => scanLine .code rest
            | depth + 1 => scanLine (.comment depth) rest
          else scanLine mode (b :: rest)
      | .string =>
          if a == byte '\\' && (b == byte '\\' || b == byte '"') then scanLine .string rest
          else if a == byte '"' then scanLine .code (b :: rest)
          else scanLine .string (b :: rest)
      | .code =>
          if a == byte '"' then scanLine .string (b :: rest)
          else if a == byte '/' && b == byte '/' then (.code, false)
          else if a == byte '/' && b == byte '*' then scanLine (.comment 0) rest
          else if a == byte '\\' && b == byte '\r' && rest.isEmpty then (.code, true)
          else scanLine .code (b :: rest)

/-- What is known between two lines: the mode, whether the next line continues this one, and
the word that closes the body the text is in. -/
structure State where
  mode : Mode
  continued : Bool
  closer : Option Keyword
deriving DecidableEq, Repr

namespace State

def initial : State := ⟨.code, false, none⟩

/-- Whether the next line begins in plain code, where it could open or close an item. -/
def atItem (state : State) : Bool := state.mode == .code && !state.continued

/-- Whether a line opens an item. -/
def opens (state : State) (line : Bytes) : Bool :=
  state.atItem && state.closer.isNone && (readHead (content line)).opensItem

/-- The state behind a line. -/
def next (state : State) (line : Bytes) : State :=
  let head := readHead (content line)
  let closer :=
    if !state.atItem then state.closer
    else
      match state.closer with
      | none => head.closer?
      | some word => if head.keyword? == some word then none else some word
  let (mode, continued) := scanLine state.mode (content line)
  ⟨mode, continued, closer⟩

end State

/-- Each line with whether it opens an item. -/
def mark (state : State) : List Bytes → List (Bool × Bytes)
  | [] => []
  | line :: rest => (state.opens line, line) :: mark (state.next line) rest

/-- Joins marked lines that begin at `place`: the text before the first marked line, and a
segment for each marked one. -/
def gather (place : Location) : List (Bool × Bytes) → Bytes × List Segment
  | [] => ([], [])
  | (opens, line) :: rest =>
      let (text, segments) := gather (place.advance line) rest
      if opens then ([], ⟨line ++ text, place⟩ :: segments) else (line ++ text, segments)

/-- The segments of a source file. There is always one, which begins with the file. -/
def split (source : Bytes) : List Segment :=
  match mark .initial (lines source) with
  | [] => [⟨[], .origin⟩]
  | (_, line) :: rest => (gather .origin ((true, line) :: rest)).2

end Segment

end NovelAsm
