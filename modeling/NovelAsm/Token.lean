import NovelAsm.Location

/-!
Tokens. Every byte of a source text belongs to exactly one token, blanks and
comments included, so the texts of a token list put together are the source.
Tokens that carry no meaning are trivia; line ends are tokens of their own,
because an instruction ends with its line.
-/

namespace NovelAsm

/-- Reserved words. `mod` and `div` are operators and mnemonics at once. -/
inductive Keyword where
  | function
  | endFunction
  | subroutine
  | endSubroutine
  | definition
  | modulo
  | division
deriving DecidableEq, Repr

namespace Keyword

def all : List Keyword :=
  [.function, .endFunction, .subroutine, .endSubroutine, .definition, .modulo, .division]

def text : Keyword → String
  | .function => "function"
  | .endFunction => "endfun"
  | .subroutine => "subroutine"
  | .endSubroutine => "endsub"
  | .definition => "def"
  | .modulo => "mod"
  | .division => "div"

def ofText? (text : Bytes) : Option Keyword := all.find? fun word => ascii word.text == text

end Keyword

/-- Marks and operators of one or two characters. -/
inductive Punctuation where
  | leftParen | rightParen
  | leftBracket | rightBracket
  | leftBrace | rightBrace
  | comma | colon
  | equals | fatArrow
  | plus | minus
  | asterisk | slash
  | dotAsterisk | dotSlash
  | ampersand | doubleAmpersand
  | pipe | doublePipe
  | caret | tilde | bang
  | lessThan | lessEquals
  | greaterThan | greaterEquals
  | doubleEquals | bangEquals
  | shiftLeft | shiftRight
deriving DecidableEq, Repr

def Punctuation.name : Punctuation → String
  | .leftParen => "leftParen"
  | .rightParen => "rightParen"
  | .leftBracket => "leftBracket"
  | .rightBracket => "rightBracket"
  | .leftBrace => "leftBrace"
  | .rightBrace => "rightBrace"
  | .comma => "comma"
  | .colon => "colon"
  | .equals => "equals"
  | .fatArrow => "fatArrow"
  | .plus => "plus"
  | .minus => "minus"
  | .asterisk => "asterisk"
  | .slash => "slash"
  | .dotAsterisk => "dotAsterisk"
  | .dotSlash => "dotSlash"
  | .ampersand => "ampersand"
  | .doubleAmpersand => "ampersandAmpersand"
  | .pipe => "pipe"
  | .doublePipe => "pipePipe"
  | .caret => "caret"
  | .tilde => "tilde"
  | .bang => "bang"
  | .lessThan => "lessThan"
  | .lessEquals => "lessEquals"
  | .greaterThan => "greaterThan"
  | .greaterEquals => "greaterEquals"
  | .doubleEquals => "equalsEquals"
  | .bangEquals => "bangEquals"
  | .shiftLeft => "shiftLeft"
  | .shiftRight => "shiftRight"

/-- Text that the parser never sees. -/
inductive Trivia where
  | whitespace
  | lineComment
  | blockComment
  | lineContinuation
deriving DecidableEq, Repr

def Trivia.name : Trivia → String
  | .whitespace => "whitespace"
  | .lineComment => "lineComment"
  | .blockComment => "blockComment"
  | .lineContinuation => "lineContinuation"

inductive TokenKind where
  | endOfFile
  | identifier
  | register
  | integerLiteral
  | realLiteral
  | stringLiteral
  | newline
  | invalid
  | trivia (kind : Trivia)
  | keyword (word : Keyword)
  | mark (mark : Punctuation)
deriving DecidableEq, Repr

namespace TokenKind

def name : TokenKind → String
  | .endOfFile => "endOfFile"
  | .identifier => "identifier"
  | .register => "register"
  | .integerLiteral => "integerLiteral"
  | .realLiteral => "realLiteral"
  | .stringLiteral => "stringLiteral"
  | .newline => "newline"
  | .invalid => "error"
  | .trivia kind => kind.name
  | .keyword word => word.text
  | .mark m => m.name

def isTrivia : TokenKind → Bool
  | .trivia _ => true
  | _ => false

end TokenKind

structure Token where
  kind : TokenKind
  text : Bytes
  span : Span
deriving DecidableEq, Repr

def Token.isTrivia (token : Token) : Bool := token.kind.isTrivia

end NovelAsm
