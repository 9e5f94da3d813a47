import NovelAsm.Expr
import NovelAsm.Flag

/-!
Routines: the units of a program with all names resolved. A script is a label
outside of functions with the lines behind it; functions and subroutines are
written as such. A routine is a list of statements, each a label or an
instruction with the operands that were written for it.
-/

namespace NovelAsm

inductive RoutineKind where
  | script
  | function
  | subroutine
deriving DecidableEq, Repr

namespace RoutineKind

def name : RoutineKind → String
  | .script => "script"
  | .function => "function"
  | .subroutine => "subroutine"

def code : RoutineKind → Nat
  | .script => 0
  | .function => 1
  | .subroutine => 2

end RoutineKind

/-- One case of a table jump. -/
structure TableCase where
  key : Expr
  target : Expr
  span : Span

/-- An operand as it was written. The span of an expression includes its parentheses. -/
inductive Argument where
  | expression (span : Span) (value : Expr)
  | flag (span : Span) (flag : Flag)
  | array (span : Span) (elements : List Expr)
  | jumpTable (span : Span) (cases : List TableCase)

def Argument.span : Argument → Span
  | .expression span _ | .flag span _ | .array span _ | .jumpTable span _ => span

inductive Statement where
  | label (span : Span) (name : Bytes)
  | instruction (span : Span) (mnemonic : Bytes) (arguments : List Argument)

structure Routine where
  kind : RoutineKind
  name : Bytes
  parameterCount : Nat
  /-- The registers that a function saves and restores, in the order of saving. -/
  preserved : List Register
  statements : List Statement
  span : Span

end NovelAsm
