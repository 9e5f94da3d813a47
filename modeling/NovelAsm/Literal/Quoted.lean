import NovelAsm.Bytes

/-!
String literals: a text between double quotes. A quote or a backslash inside is
written behind a backslash, and there is no other escape, so a literal that is
to be read on one line can hold every byte but a line end.
-/

namespace NovelAsm.Literal

def quoteMark : UInt8 := byte '"'

def escapeMark : UInt8 := byte '\\'

def needsEscape (b : UInt8) : Bool := b == escapeMark || b == quoteMark

/-- Resolves the escapes of the text between the quotes. A quote that stands alone is taken
as it is; a backslash before anything else, or at the end, is refused. -/
def unescape? : Bytes → Option Bytes
  | [] => some []
  | b :: rest =>
      if b != escapeMark then (unescape? rest).map (b :: ·)
      else
        match rest with
        | [] => none
        | escaped :: behind =>
            if needsEscape escaped then (unescape? behind).map (escaped :: ·) else none

/-- The text that a string literal stands for. -/
def string? : Bytes → Option Bytes
  | [] => none
  | first :: rest =>
      if first == quoteMark && rest.getLast? == some quoteMark then unescape? rest.dropLast
      else none

/-- The string literal for a text. -/
def quote (text : Bytes) : Bytes :=
  quoteMark :: text.flatMap (fun b => if needsEscape b then [escapeMark, b] else [b])
    ++ [quoteMark]

end NovelAsm.Literal
