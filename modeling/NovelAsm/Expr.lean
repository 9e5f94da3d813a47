import NovelAsm.Scope

/-!
Expressions with their names resolved: every name has become a value, a register
or the symbol it stands for, and every operator has its operands. What could not
be resolved is an `error`, which has been reported where it was found.
-/

namespace NovelAsm

inductive UnaryOperator where
  | negate
  | bitNot
  | logicalNot
deriving DecidableEq, Repr

def UnaryOperator.name : UnaryOperator → String
  | .negate => "negate"
  | .bitNot => "bitwiseNot"
  | .logicalNot => "logicalNot"

inductive BinaryOperator where
  | add | subtract | multiply | divide | integerDivide | modulo
  | multiplyReal | divideReal
  | shiftLeft | shiftRight
  | bitAnd | bitOr | bitXor
  | equal | notEqual | less | lessEqual | greater | greaterEqual
  | logicalAnd | logicalOr
deriving DecidableEq, Repr

def BinaryOperator.name : BinaryOperator → String
  | .add => "add"
  | .subtract => "subtract"
  | .multiply => "multiply"
  | .divide => "divide"
  | .integerDivide => "integerDivide"
  | .modulo => "modulo"
  | .multiplyReal => "multiplyReal"
  | .divideReal => "divideReal"
  | .shiftLeft => "shiftLeft"
  | .shiftRight => "shiftRight"
  | .bitAnd => "bitwiseAnd"
  | .bitOr => "bitwiseOr"
  | .bitXor => "bitwiseXor"
  | .equal => "equal"
  | .notEqual => "notEqual"
  | .less => "less"
  | .lessEqual => "lessEqual"
  | .greater => "greater"
  | .greaterEqual => "greaterEqual"
  | .logicalAnd => "logicalAnd"
  | .logicalOr => "logicalOr"

/-- The functions that an expression can call. -/
inductive Intrinsic where
  | abs | sin | cos | tan
  | min | max
  | select
  | nonzero
deriving DecidableEq, Repr

namespace Intrinsic

def all : List Intrinsic := [.abs, .sin, .cos, .tan, .min, .max, .select, .nonzero]

def name : Intrinsic → String
  | .abs => "abs"
  | .sin => "sin"
  | .cos => "cos"
  | .tan => "tan"
  | .min => "min"
  | .max => "max"
  | .select => "select"
  | .nonzero => "nonzero"

def arity : Intrinsic → Nat
  | .min | .max => 2
  | .select => 3
  | _ => 1

def ofName? (name : Bytes) : Option Intrinsic :=
  all.find? fun intrinsic => ascii intrinsic.name == name

end Intrinsic

inductive Expr where
  | literal (span : Span) (value : Value)
  | string (span : Span) (text : Bytes)
  /-- A register with the name by which it was written. -/
  | register (span : Span) (source : Register) (spelling : Bytes)
  /-- A place in the code, with what a call of it has to know. -/
  | codeAddress (span : Span) (name : Bytes) (kind : SymbolKind) (parameterCount : Nat)
  | unary (span : Span) (operator : UnaryOperator) (operand : Expr)
  | binary (span : Span) (operator : BinaryOperator) (left right : Expr)
  | call (span : Span) (intrinsic : Intrinsic) (arguments : List Expr)
  | error (span : Span)

namespace Expr

def span : Expr → Span
  | .literal span _ | .string span _ | .register span _ _ | .codeAddress span _ _ _
  | .unary span _ _ | .binary span _ _ _ | .call span _ _ | .error span => span

def isError : Expr → Bool
  | .error _ => true
  | _ => false

instance : Inhabited Expr := ⟨.error .origin⟩

end Expr

end NovelAsm
