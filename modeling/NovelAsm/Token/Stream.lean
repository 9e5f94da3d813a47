import NovelAsm.Diagnostic
import NovelAsm.Token.Lexeme

/-!
The token stream of a text. `Lexed.read` walks the text byte by byte; at the first byte
of a token it cuts off the lexeme there and then passes over the bytes that belong
to it. The walk is a recursion on the text itself, so it ends whatever the lexemes
are, and it reads nothing behind the end.
-/

namespace NovelAsm

/-- A text as tokens. The token at its end is kept apart, because the list before it has
none of that kind. -/
structure Lexed where
  tokens : List Token
  finish : Token
  diagnostics : Diagnostics
deriving DecidableEq, Repr

namespace Lexed

/-- The diagnostic for a flaw of the lexeme whose text begins at `place`. -/
def diagnose (place : Location) (text : Bytes) (flaw : Flaw) : Diagnostic :=
  .error flaw.problem.code (ascii flaw.problem.message)
    ⟨place.advance (text.take flaw.start), place.advance (text.take flaw.stop)⟩

/-- The token at the end of a text. -/
def finishAt (place : Location) : Token := ⟨.endOfFile, [], ⟨place, place⟩⟩

/-- Cuts a text into tokens, where the first `skip` bytes belong to a token already cut. The
location is that of the first byte behind these. -/
def walk (skip : Nat) (place : Location) : Bytes → Lexed
  | [] => ⟨[], finishAt place, []⟩
  | first :: rest =>
      match skip with
      | skip + 1 => walk skip place rest
      | 0 =>
          let lexeme := Lexeme.scan first rest
          let text := first :: rest.take lexeme.more
          let span := Span.covering place text
          let behind := walk lexeme.more span.stop rest
          { tokens := ⟨lexeme.kind, text, span⟩ :: behind.tokens
            finish := behind.finish
            diagnostics := lexeme.flaws.map (diagnose place text) ++ behind.diagnostics }

/-- The tokens of a text that begins at `place`. -/
def read (text : Bytes) (place : Location) : Lexed := walk 0 place text

/-- All tokens, the one at the end included. -/
def all (lexed : Lexed) : List Token := lexed.tokens ++ [lexed.finish]

end Lexed

end NovelAsm
