import NovelAsm.Token

/-!
Lexemes: how the next token of a text is cut off. `Lexeme.scan` looks at a
non-empty text and answers with the kind of its first token, with the number of
bytes that follow the first one inside that token, and with the flaws found in
it. A lexeme knows nothing of its place: flaws are counted from its first byte,
so the same text is cut in the same way wherever it stands.
-/

namespace NovelAsm

inductive LexicalProblem where
  | unexpectedCharacter
  | unterminatedString
  | unterminatedComment
  | bareDollar
  | malformedNumber
  | unknownEscape
  | strayBackslash
deriving DecidableEq, Repr

namespace LexicalProblem

def code : LexicalProblem → String
  | .unexpectedCharacter => "SASM-E2000"
  | .unterminatedString => "SASM-E2002"
  | .unterminatedComment => "SASM-E2003"
  | .bareDollar => "SASM-E2004"
  | .malformedNumber => "SASM-E2005"
  | .unknownEscape => "SASM-E2006"
  | .strayBackslash => "SASM-E2007"

def message : LexicalProblem → String
  | .unexpectedCharacter => "Unexpected character in source."
  | .unterminatedString => "Unterminated string literal."
  | .unterminatedComment => "Unterminated block comment; missing trailing '*/'."
  | .bareDollar => "Expected a register name after '$'."
  | .malformedNumber => "Malformed number literal."
  | .unknownEscape => "Unknown escape sequence in string literal."
  | .strayBackslash => "Line continuation must be followed by a newline."

end LexicalProblem

/-- A problem with the part of a lexeme from byte `start` to byte `stop`. -/
structure Flaw where
  problem : LexicalProblem
  start : Nat
  stop : Nat
deriving DecidableEq, Repr

/-- A token cut off a text: its first byte and `more` bytes behind it. -/
structure Lexeme where
  kind : TokenKind
  more : Nat
  flaws : List Flaw
deriving DecidableEq, Repr

namespace Lexeme

def size (lexeme : Lexeme) : Nat := lexeme.more + 1

/-- A lexeme without flaws. -/
def clean (kind : TokenKind) (more : Nat) : Lexeme := ⟨kind, more, []⟩

/-- A lexeme of which the whole text is wrong. -/
def flawed (kind : TokenKind) (more : Nat) (problem : LexicalProblem) : Lexeme :=
  ⟨kind, more, [⟨problem, 0, more + 1⟩]⟩

/-- How many bytes at the front of a text satisfy a test. -/
def run (test : UInt8 → Bool) (text : Bytes) : Nat := (text.takeWhile test).length

/-- The blanks at the front of a text. A carriage return is a blank unless a line feed
follows: then the two are a line end. -/
def blanks : Bytes → Nat
  | [] => 0
  | b :: rest =>
      if b == byte ' ' || b == byte '\t' then blanks rest + 1
      else if b == byte '\r' && rest.head? != some (byte '\n') then blanks rest + 1
      else 0

def isDigitOrSeparator (b : UInt8) : Bool := Byte.isDigit b || b == byte '_'

def isHexDigitOrSeparator (b : UInt8) : Bool := Byte.isHexDigit b || b == byte '_'

/-- A point and the digits behind it, if there is one digit at least: `1.*` is a number and
an operator. -/
def fraction : Bytes → Nat
  | point :: digit :: rest =>
      if point == byte '.' && Byte.isDigit digit then run isDigitOrSeparator rest + 2 else 0
  | _ => 0

/-- The digits of an exponent behind its letter, with an optional sign. -/
def exponentDigits : Bytes → Nat
  | [] => 0
  | b :: rest =>
      if b == byte '+' || b == byte '-' then
        match run Byte.isDigit rest with
        | 0 => 0
        | n + 1 => n + 2
      else run Byte.isDigit (b :: rest)

/-- An exponent with its letter; nothing if no digit follows. -/
def exponent : Bytes → Nat
  | [] => 0
  | letter :: rest =>
      if letter == byte 'e' || letter == byte 'E' then
        match exponentDigits rest with
        | 0 => 0
        | n + 1 => n + 2
      else 0

/-- Whether a byte behind a leading zero announces a base. -/
def isBaseLetter (b : UInt8) : Bool :=
  [byte 'x', byte 'b', byte 'o'].contains (Byte.toLower b)

/-- The body of a number literal and whether it is a real. Any hexadecimal digit is taken
after a base letter; which of them the base has is seen when the literal is read. -/
def numberBody (first : UInt8) (rest : Bytes) : Nat × Bool :=
  if first == byte '0' && rest.head?.any isBaseLetter then
    (run isHexDigitOrSeparator (rest.drop 1) + 1, false)
  else
    let whole := run isDigitOrSeparator rest
    let part := fraction (rest.drop whole)
    let power := exponent (rest.drop (whole + part))
    (whole + part + power, part != 0 || power != 0)

/-- A number literal. Name characters stuck to its end spoil it, and stay in its token. -/
def number (first : UInt8) (rest : Bytes) : Lexeme :=
  let (body, isReal) := numberBody first rest
  match run Byte.isNamePart (rest.drop body) with
  | 0 => clean (if isReal then .realLiteral else .integerLiteral) body
  | tail => flawed .invalid (body + tail) .malformedNumber

/-- A string literal behind its opening quote; `seen` counts the bytes before `rest`. It
ends at the closing quote or before the end of its line. -/
def stringBody (seen : Nat) (flaws : List Flaw) : Bytes → Lexeme
  | [] => unclosed
  | b :: rest =>
      if b == byte '\n' || b == byte '\r' then unclosed
      else if b == byte '"' then ⟨.stringLiteral, seen, flaws⟩
      else if b != byte '\\' then stringBody (seen + 1) flaws rest
      else
        match rest with
        | [] => stringBody (seen + 1) (flaws ++ [⟨.unknownEscape, seen + 1, seen + 1⟩]) []
        | escaped :: behind =>
            if escaped == byte '\\' || escaped == byte '"' then
              stringBody (seen + 2) flaws behind
            else
              stringBody (seen + 1) (flaws ++ [⟨.unknownEscape, seen + 1, seen + 1⟩])
                (escaped :: behind)
where
  unclosed : Lexeme :=
    ⟨.stringLiteral, seen - 1, flaws ++ [⟨.unterminatedString, 0, seen⟩]⟩

/-- A block comment behind its opening; comments nest. `seen` counts the bytes before
`rest`, and `depth` the openings that still wait for their end besides the first. -/
def blockComment (seen depth : Nat) : Bytes → Lexeme
  | [] => flawed (.trivia .blockComment) (seen - 1) .unterminatedComment
  | [_] => flawed (.trivia .blockComment) seen .unterminatedComment
  | a :: b :: rest =>
      if a == byte '/' && b == byte '*' then blockComment (seen + 2) (depth + 1) rest
      else if a == byte '*' && b == byte '/' then
        match depth with
        | 0 => clean (.trivia .blockComment) (seen + 1)
        | depth + 1 => blockComment (seen + 2) depth rest
      else blockComment (seen + 1) depth (b :: rest)

def notLineEnd (b : UInt8) : Bool := b != byte '\n' && b != byte '\r'

/-- A slash, or the comment it opens. -/
def slash : Bytes → Lexeme
  | [] => clean (.mark .slash) 0
  | b :: rest =>
      if b == byte '/' then clean (.trivia .lineComment) (run notLineEnd rest + 1)
      else if b == byte '*' then blockComment 2 0 rest
      else clean (.mark .slash) 0

/-- A backslash joins a line to the next one, and stands nowhere else. -/
def backslash : Bytes → Lexeme
  | [] => stray
  | b :: rest =>
      if b == byte '\r' && rest.head? == some (byte '\n') then
        clean (.trivia .lineContinuation) 2
      else if b == byte '\n' || b == byte '\r' then clean (.trivia .lineContinuation) 1
      else stray
where
  stray : Lexeme := flawed .invalid 0 .strayBackslash

/-- A register name behind its dollar sign. -/
def register (rest : Bytes) : Lexeme :=
  match run Byte.isNamePart rest with
  | 0 => flawed .invalid 0 .bareDollar
  | n => clean .register n

/-- A name or a reserved word. -/
def word (first : UInt8) (rest : Bytes) : Lexeme :=
  let more := rest.takeWhile Byte.isNamePart
  match Keyword.ofText? (first :: more) with
  | some keyword => clean (.keyword keyword) more.length
  | none => clean .identifier more.length

/-- A byte that no token begins with. The continuation bytes of a multi-byte character stay
with it, so that one character makes one diagnostic. -/
def unexpected (rest : Bytes) : Lexeme :=
  flawed .invalid (run (fun b => b &&& 0xc0 == 0x80) rest) .unexpectedCharacter

/-- The mark that a text begins with, preferring two characters over one. -/
def punctuation? (first : Char) (second : Option Char) : Option Lexeme :=
  match first, second with
  | '.', some '*' => some (clean (.mark .dotAsterisk) 1)
  | '.', some '/' => some (clean (.mark .dotSlash) 1)
  | '=', some '=' => some (clean (.mark .doubleEquals) 1)
  | '=', some '>' => some (clean (.mark .fatArrow) 1)
  | '!', some '=' => some (clean (.mark .bangEquals) 1)
  | '<', some '=' => some (clean (.mark .lessEquals) 1)
  | '<', some '<' => some (clean (.mark .shiftLeft) 1)
  | '>', some '=' => some (clean (.mark .greaterEquals) 1)
  | '>', some '>' => some (clean (.mark .shiftRight) 1)
  | '&', some '&' => some (clean (.mark .doubleAmpersand) 1)
  | '|', some '|' => some (clean (.mark .doublePipe) 1)
  | '(', _ => some (clean (.mark .leftParen) 0)
  | ')', _ => some (clean (.mark .rightParen) 0)
  | '[', _ => some (clean (.mark .leftBracket) 0)
  | ']', _ => some (clean (.mark .rightBracket) 0)
  | '\x7b', _ => some (clean (.mark .leftBrace) 0)
  | '\x7d', _ => some (clean (.mark .rightBrace) 0)
  | ',', _ => some (clean (.mark .comma) 0)
  | ':', _ => some (clean (.mark .colon) 0)
  | '=', _ => some (clean (.mark .equals) 0)
  | '+', _ => some (clean (.mark .plus) 0)
  | '-', _ => some (clean (.mark .minus) 0)
  | '*', _ => some (clean (.mark .asterisk) 0)
  | '&', _ => some (clean (.mark .ampersand) 0)
  | '|', _ => some (clean (.mark .pipe) 0)
  | '^', _ => some (clean (.mark .caret) 0)
  | '~', _ => some (clean (.mark .tilde) 0)
  | '!', _ => some (clean (.mark .bang) 0)
  | '<', _ => some (clean (.mark .lessThan) 0)
  | '>', _ => some (clean (.mark .greaterThan) 0)
  | _, _ => none

/-- The first lexeme of a text. -/
def scan (first : UInt8) (rest : Bytes) : Lexeme :=
  if blanks (first :: rest) != 0 then
    clean (.trivia .whitespace) (blanks (first :: rest) - 1)
  else if first == byte '\n' then clean .newline 0
  else if first == byte '\r' then clean .newline 1
  else if Byte.isNameStart first then word first rest
  else if Byte.isDigit first then number first rest
  else if first == byte '"' then stringBody 1 [] rest
  else if first == byte '$' then register rest
  else if first == byte '\\' then backslash rest
  else if first == byte '/' then slash rest
  else
    match punctuation? (Char.ofNat first.toNat) (rest.head?.map (Char.ofNat ·.toNat)) with
    | some lexeme => lexeme
    | none => unexpected rest

end Lexeme

end NovelAsm
