import NovelAsm.Number

/-!
Expression terms: the reverse-polish code of the machine. A term pushes a number
or replaces the topmost `arity` values of the stack by one. Every term has a
one-byte code below `0x20`; a list of terms in code ends with `0xff`.
-/

namespace NovelAsm

/-- What the machine can do with values on its stack. -/
inductive Operator where
  | add | subtract | multiply | divide | modulo
  | shiftLeft | shiftRight
  | bitAnd | bitOr | bitXor
  | negate | bitNot | abs
  | equal | notEqual | greaterEqual | greater | lessEqual | less
  | isZero | isNonzero
  | logicalAnd | logicalOr
  | select
  | multiplyReal | divideReal
  | sin | cos | tan
  | min | max
deriving DecidableEq, Repr

namespace Operator

/-- The operators in the order of their codes. -/
def all : List Operator :=
  [.add, .subtract, .multiply, .divide, .modulo, .shiftLeft, .shiftRight, .bitAnd, .bitOr,
    .bitXor, .negate, .bitNot, .abs, .equal, .notEqual, .greaterEqual, .greater, .lessEqual,
    .less, .isZero, .isNonzero, .logicalAnd, .logicalOr, .select, .multiplyReal, .divideReal,
    .sin, .cos, .tan, .min, .max]

def code : Operator → UInt8
  | .add => 0x01
  | .subtract => 0x02
  | .multiply => 0x03
  | .divide => 0x04
  | .modulo => 0x05
  | .shiftLeft => 0x06
  | .shiftRight => 0x07
  | .bitAnd => 0x08
  | .bitOr => 0x09
  | .bitXor => 0x0a
  | .negate => 0x0b
  | .bitNot => 0x0c
  | .abs => 0x0d
  | .equal => 0x0e
  | .notEqual => 0x0f
  | .greaterEqual => 0x10
  | .greater => 0x11
  | .lessEqual => 0x12
  | .less => 0x13
  | .isZero => 0x14
  | .isNonzero => 0x15
  | .logicalAnd => 0x16
  | .logicalOr => 0x17
  | .select => 0x18
  | .multiplyReal => 0x19
  | .divideReal => 0x1a
  | .sin => 0x1b
  | .cos => 0x1c
  | .tan => 0x1d
  | .min => 0x1e
  | .max => 0x1f

def name : Operator → String
  | .add => "add"
  | .subtract => "sub"
  | .multiply => "mul"
  | .divide => "div"
  | .modulo => "mod"
  | .shiftLeft => "shl"
  | .shiftRight => "shr"
  | .bitAnd => "and"
  | .bitOr => "or"
  | .bitXor => "xor"
  | .negate => "neg"
  | .bitNot => "not"
  | .abs => "abs"
  | .equal => "eq"
  | .notEqual => "ne"
  | .greaterEqual => "ge"
  | .greater => "gt"
  | .lessEqual => "le"
  | .less => "lt"
  | .isZero => "zero"
  | .isNonzero => "nonzero"
  | .logicalAnd => "land"
  | .logicalOr => "lor"
  | .select => "select"
  | .multiplyReal => "mulf"
  | .divideReal => "divf"
  | .sin => "sin"
  | .cos => "cos"
  | .tan => "tan"
  | .min => "min"
  | .max => "max"

/-- How many stack values an operator replaces. -/
def arity : Operator → Nat
  | .negate | .bitNot | .abs | .isZero | .isNonzero | .sin | .cos | .tan => 1
  | .select => 3
  | _ => 2

def ofCode? (code : UInt8) : Option Operator := all.find? (·.code == code)

def ofName? (name : String) : Option Operator := all.find? (·.name == name)

end Operator

inductive Term where
  | push (number : Number)
  | apply (operator : Operator)
deriving DecidableEq, Repr

namespace Term

/-- The code of a pushed number. -/
def pushCode : UInt8 := 0x00

/-- Ends a list of terms in code. -/
def terminator : UInt8 := 0xff

def code : Term → UInt8
  | .push _ => pushCode
  | .apply operator => operator.code

def name : Term → String
  | .push _ => "push"
  | .apply operator => operator.name

/-- How many stack values a term takes away before it leaves one. -/
def arity : Term → Nat
  | .push _ => 0
  | .apply operator => operator.arity

end Term

end NovelAsm
