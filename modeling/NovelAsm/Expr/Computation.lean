import NovelAsm.Diagnostic
import NovelAsm.Expr
import NovelAsm.Term

/-!
What an expression comes to: a constant, a list of terms for the machine's
stack, or nothing. Whatever can be computed while assembling is computed;
trigonometry is left to the machine.

Integers and reals mix by promotion: an integer becomes a real by a factor of one
thousand, in the constant itself or by two more terms. Folding is exact. Its
intermediate results are integers without bound, and one that does not fit 32
bits is an error, never a wrapped value.
-/

namespace NovelAsm

/-- Why an operator has no value for its operands. -/
inductive FoldProblem where
  | overflow
  | shiftCount (count : Int)
  | zeroDivisor
deriving DecidableEq, Repr

namespace Operator

/-- The machine's truth values: all bits set, or none. -/
def truthWord (condition : Bool) : Int64 := if condition then -1 else 0

def isDivision : Operator → Bool
  | .divide | .modulo | .divideReal => true
  | _ => false

/-- The scale of reals, as a constant. -/
def scale : Int := 1000

/-- The value of an operator in words of 64 bits, which wrap. Nothing for trigonometry, which only
the machine computes, and for a list of operands that does not fit. A right shift is one of the 32
bits of a constant, and keeps the sign. -/
def wide? : Operator → List Int32 → Option Int64
  | .add, [a, b] => some (a.toInt64 + b.toInt64)
  | .subtract, [a, b] => some (a.toInt64 - b.toInt64)
  | .multiply, [a, b] => some (a.toInt64 * b.toInt64)
  | .divide, [a, b] => some (a.toInt64 / b.toInt64)
  | .modulo, [a, b] => some (a.toInt64 % b.toInt64)
  | .multiplyReal, [a, b] => some (a.toInt64 * b.toInt64 / Int64.ofInt scale)
  | .divideReal, [a, b] => some (a.toInt64 * Int64.ofInt scale / b.toInt64)
  | .shiftLeft, [a, b] => some (a.toInt64 * (1 <<< b.toInt64))
  | .shiftRight, [a, b] => some (a >>> b).toInt64
  | .bitAnd, [a, b] => some (a.toInt64 &&& b.toInt64)
  | .bitOr, [a, b] => some (a.toInt64 ||| b.toInt64)
  | .bitXor, [a, b] => some (a.toInt64 ^^^ b.toInt64)
  | .negate, [a] => some (-a.toInt64)
  | .bitNot, [a] => some (~~~a.toInt64)
  | .abs, [a] => some (if a.toInt64 < 0 then -a.toInt64 else a.toInt64)
  | .equal, [a, b] => some (truthWord (a.toInt64 == b.toInt64))
  | .notEqual, [a, b] => some (truthWord (a.toInt64 != b.toInt64))
  | .greaterEqual, [a, b] => some (truthWord (b.toInt64 ≤ a.toInt64))
  | .greater, [a, b] => some (truthWord (b.toInt64 < a.toInt64))
  | .lessEqual, [a, b] => some (truthWord (a.toInt64 ≤ b.toInt64))
  | .less, [a, b] => some (truthWord (a.toInt64 < b.toInt64))
  | .isZero, [a] => some (truthWord (a.toInt64 == 0))
  | .isNonzero, [a] => some (truthWord (a.toInt64 != 0))
  | .logicalAnd, [a, b] => some (truthWord (a.toInt64 != 0 && b.toInt64 != 0))
  | .logicalOr, [a, b] => some (truthWord (a.toInt64 != 0 || b.toInt64 != 0))
  | .min, [a, b] => some (if a.toInt64 < b.toInt64 then a.toInt64 else b.toInt64)
  | .max, [a, b] => some (if b.toInt64 < a.toInt64 then a.toInt64 else b.toInt64)
  | .select, [whenFalse, whenTrue, condition] =>
      some (if condition != 0 then whenTrue.toInt64 else whenFalse.toInt64)
  | _, _ => none

/-- What is wrong with the operands of an operator, if anything is. -/
def fault? : Operator → List Int32 → Option FoldProblem
  | .shiftLeft, [_, b] | .shiftRight, [_, b] =>
      if b.toInt < 0 || 31 < b.toInt then some (.shiftCount b.toInt) else none
  | .divide, [_, b] | .modulo, [_, b] | .divideReal, [_, b] =>
      if b.toInt == 0 then some .zeroDivisor else none
  | _, _ => none

/-- An integer as a constant, if it fits. -/
def fit? (value : Int) : Option Int32 :=
  if -0x80000000 ≤ value && value ≤ 0x7fffffff then some (Int32.ofInt value) else none

/-- Applies an operator to constants. The answer is nothing for what only the machine
computes. -/
def fold? (operator : Operator) (operands : List Int32) : Option (Except FoldProblem Int32) :=
  match operator.fault? operands with
  | some problem => some (.error problem)
  | none =>
      (operator.wide? operands).map fun value =>
        match fit? value.toInt with
        | some number => .ok number
        | none => .error .overflow

end Operator

inductive ExpressionProblem where
  | realOperand (operator : String)
  | mixedKinds (operator : String) (left right : ValueKind)
  | promotionOverflow
  | overflow
  | shiftCount (count : Int)
  | zeroDivisor
  | stringAsNumber
  | addressAsNumber (name : Bytes)
  | argumentCount (intrinsic : Intrinsic) (found : Nat)
  | notConstant
deriving DecidableEq, Repr

namespace ExpressionProblem

def code : ExpressionProblem → String
  | .realOperand _ | .mixedKinds _ _ _ => "SASM-E2304"
  | .promotionOverflow | .overflow | .shiftCount _ => "SASM-E2305"
  | .zeroDivisor => "SASM-E2306"
  | .stringAsNumber => "SASM-E2307"
  | .addressAsNumber _ => "SASM-E2308"
  | .argumentCount _ _ => "SASM-E2309"
  | .notConstant => "SASM-E2214"

def message : ExpressionProblem → Bytes
  | .realOperand operator =>
      ascii "Operator '" ++ ascii operator
        ++ ascii "' requires integer operands, found a real value."
  | .mixedKinds operator left right =>
      ascii "Operands of '" ++ ascii operator ++ ascii "' must have the same kind, found "
        ++ ascii left.name ++ ascii " and " ++ ascii right.name ++ ascii "."
  | .promotionOverflow => ascii "Constant overflows 32 bits when converted to a real value."
  | .overflow => ascii "Constant expression overflows 32 bits."
  | .shiftCount count => ascii "Shift count " ++ signedDecimal count ++ ascii " is outside 0..31."
  | .zeroDivisor => ascii "Division or modulo by constant zero."
  | .stringAsNumber => ascii "A string cannot be used as a number."
  | .addressAsNumber name =>
      ascii "Code address '" ++ name ++ ascii "' cannot be used as a number."
  | .argumentCount intrinsic found =>
      ascii "'" ++ ascii intrinsic.name ++ ascii "' expects " ++ decimal intrinsic.arity
        ++ ascii " argument(s), found " ++ decimal found ++ ascii "."
  | .notConstant => ascii "Expression does not fold to a constant."

def ofFold : FoldProblem → ExpressionProblem
  | .overflow => .overflow
  | .shiftCount count => .shiftCount count
  | .zeroDivisor => .zeroDivisor

def report (problem : ExpressionProblem) (span : Span) : Reporting PUnit :=
  .report (.error problem.code problem.message span)

end ExpressionProblem

/-- The outcome of an expression, without its kind. -/
inductive Outcome where
  | constant (value : Int32)
  | terms (terms : List Term)
  | invalid
deriving DecidableEq, Repr

structure Computation where
  kind : ValueKind
  outcome : Outcome
  span : Span
deriving DecidableEq, Repr

namespace Computation

def invalid (span : Span) : Computation := ⟨.integer, .invalid, span⟩

def isValid (computation : Computation) : Bool := computation.outcome != .invalid

def constant? (computation : Computation) : Option Int32 :=
  match computation.outcome with
  | .constant value => some value
  | _ => none

/-- The terms that leave the value on the stack. -/
def toTerms (computation : Computation) : List Term :=
  match computation.outcome with
  | .constant value => [.push (.constant value)]
  | .terms terms => terms
  | .invalid => []

/-- A constant or a register that is read alone; anything else needs the stack. -/
def number? (computation : Computation) : Option Number :=
  match computation.outcome with
  | .constant value => some (.constant value)
  | .terms [.push number] => some number
  | _ => none

def isReal (computation : Computation) : Bool := computation.kind == .real

/-- The value as a real. -/
def promote (computation : Computation) : Reporting Computation := do
  if computation.isReal then return computation
  match computation.outcome with
  | .invalid => return computation
  | .constant value =>
      match Operator.fit? (value.toInt * Operator.scale) with
      | some scaled => return { computation with kind := .real, outcome := .constant scaled }
      | none =>
          ExpressionProblem.promotionOverflow.report computation.span
          return invalid computation.span
  | .terms terms =>
      let scaled := terms ++ [.push (.constant (Int32.ofInt Operator.scale)), .apply .multiply]
      return { computation with kind := .real, outcome := .terms scaled }

/-- Applies an operator. Constants are folded, and a failed fold keeps the kind of its
result; otherwise the operands are computed one after another on the stack. -/
def apply (operator : Operator) (operands : List Computation) (kind : ValueKind) (span : Span) :
    Reporting Computation := do
  if !operands.all isValid then return invalid span
  match (operands.mapM constant?).bind operator.fold? with
  | some (.ok value) => return ⟨kind, .constant value, span⟩
  | some (.error problem) =>
      (ExpressionProblem.ofFold problem).report span
      return ⟨kind, .invalid, span⟩
  | none => return ⟨kind, .terms (operands.flatMap toTerms ++ [.apply operator]), span⟩

/-- A way to carry out the applications of operators that a computation makes. -/
class Applying (m : Type → Type) where
  apply : Operator → List Computation → ValueKind → Span → m Computation

@[default_instance] instance : Applying Reporting := ⟨apply⟩

/-- Whether a value is an integer, as an operator demands. -/
def requireInteger (operator : String) (computation : Computation) : Reporting Bool := do
  if computation.isReal then
    (ExpressionProblem.realOperand operator).report computation.span
    return false
  return true

/-- Whether two values are integers; the second is looked at only if the first is one. -/
def requireIntegers (operator : String) (left right : Computation) : Reporting Bool := do
  if ← requireInteger operator left then requireInteger operator right else return false

/-- Two values as values of one kind: reals, if they differ. -/
def unify (left right : Computation) : Reporting (Computation × Computation × ValueKind) := do
  if left.kind == right.kind then return (left, right, left.kind)
  let left ← left.promote
  let right ← right.promote
  return (left, right, .real)

section Steps

variable {m : Type → Type} [Monad m] [MonadLiftT Reporting m] [Applying m]

/-- A negation, complement or truth test. -/
def unary (operator : UnaryOperator) (operand : Computation) (span : Span) :
    m Computation := do
  if !operand.isValid then return invalid span
  match operator with
  | .negate => Applying.apply .negate [operand] operand.kind span
  | .bitNot =>
      if ← requireInteger "~" operand then Applying.apply .bitNot [operand] .integer span
      else return invalid span
  | .logicalNot => Applying.apply .isZero [operand] .integer span

/-- Applies an operator of two operands, of which a divisor must not be a constant zero. -/
def applyBinary (operator : Operator) (left right : Computation) (kind : ValueKind)
    (span : Span) : m Computation := do
  if !left.isValid || !right.isValid then return invalid span
  if operator.isDivision && right.constant? == some 0 then
    ExpressionProblem.zeroDivisor.report right.span
    return invalid span
  Applying.apply operator [left, right] kind span

/-- Applies an operator to two values that are made reals before. -/
def applyPromoted (operator : Operator) (left right : Computation) (kind : ValueKind)
    (span : Span) : m Computation := do
  let left ← left.promote
  let right ← right.promote
  applyBinary operator left right kind span

/-- An operator that keeps integers as they are, and works on reals if one operand is one. -/
def arithmetic (onIntegers onReals : Operator) (left right : Computation) (span : Span) :
    m Computation :=
  if left.isReal || right.isReal then
    applyPromoted onReals left right .real span
  else applyBinary onIntegers left right .integer span

/-- An operator on integers alone. -/
def integral (operator : Operator) (spelling : String) (left right : Computation)
    (span : Span) : m Computation := do
  if ← requireIntegers spelling left right then applyBinary operator left right .integer span
  else return invalid span

/-- An operator of reals that takes its operands as they are, if they are of one kind. -/
def elementwise (operator : Operator) (spelling : String) (left right : Computation)
    (span : Span) : m Computation := do
  if left.kind != right.kind then
    (ExpressionProblem.mixedKinds spelling left.kind right.kind).report span
    return invalid span
  applyBinary operator left right left.kind span

/-- A comparison; values of different kinds are compared as reals. -/
def comparison (operator : Operator) (left right : Computation) (span : Span) :
    m Computation :=
  if left.kind != right.kind then
    applyPromoted operator left right .integer span
  else applyBinary operator left right .integer span

def binary (operator : BinaryOperator) (left right : Computation) (span : Span) :
    m Computation := do
  if !left.isValid || !right.isValid then return invalid span
  match operator with
  | .add => arithmetic .add .add left right span
  | .subtract => arithmetic .subtract .subtract left right span
  | .modulo => arithmetic .modulo .modulo left right span
  | .multiply => arithmetic .multiply .multiplyReal left right span
  | .divide => applyPromoted .divideReal left right .real span
  | .integerDivide => integral .divide "div" left right span
  | .multiplyReal => elementwise .multiplyReal ".*" left right span
  | .divideReal => elementwise .divideReal "./" left right span
  | .shiftLeft => integral .shiftLeft "<<" left right span
  | .shiftRight => integral .shiftRight ">>" left right span
  | .bitAnd => integral .bitAnd "&" left right span
  | .bitOr => integral .bitOr "|" left right span
  | .bitXor => integral .bitXor "^" left right span
  | .logicalAnd => integral .logicalAnd "&&" left right span
  | .logicalOr => integral .logicalOr "||" left right span
  | .equal => comparison .equal left right span
  | .notEqual => comparison .notEqual left right span
  | .less => comparison .less left right span
  | .lessEqual => comparison .lessEqual left right span
  | .greater => comparison .greater left right span
  | .greaterEqual => comparison .greaterEqual left right span

/-- A call with valid arguments. The machine takes the condition of `select` from the top of
the stack, and the value for true from below it. -/
def call (intrinsic : Intrinsic) (arguments : List Computation) (span : Span) :
    m Computation :=
  match intrinsic, arguments with
  | .abs, [a] => Applying.apply .abs [a] a.kind span
  | .nonzero, [a] => Applying.apply .isNonzero [a] .integer span
  | .sin, [a] => Applying.apply .sin [a] .real span
  | .cos, [a] => Applying.apply .cos [a] .real span
  | .tan, [a] => Applying.apply .tan [a] .real span
  | .min, [a, b] => do
      let (a, b, kind) ← unify a b
      Applying.apply .min [a, b] kind span
  | .max, [a, b] => do
      let (a, b, kind) ← unify a b
      Applying.apply .max [a, b] kind span
  | .select, [condition, whenTrue, whenFalse] => do
      let (whenTrue, whenFalse, kind) ← unify whenTrue whenFalse
      Applying.apply .select [whenFalse, whenTrue, condition] kind span
  | intrinsic, arguments => do
      (ExpressionProblem.argumentCount intrinsic arguments.length).report span
      return invalid span

end Steps

end Computation

namespace Expr

section Steps

variable {m : Type → Type} [Monad m] [MonadLiftT Reporting m] [Computation.Applying m]

mutual

/-- What an expression comes to, where operators are applied in a way of one's own. -/
def computeIn : Expr → m Computation
  | .literal span value => return ⟨value.kind, .constant value.number, span⟩
  | .register span source _ => return ⟨.integer, .terms [.push (.register source)], span⟩
  | .string span _ => do
      ExpressionProblem.stringAsNumber.report span
      return .invalid span
  | .codeAddress span name _ _ => do
      (ExpressionProblem.addressAsNumber name).report span
      return .invalid span
  | .unary span operator operand => do
      let operand ← computeIn operand
      operand.unary operator span
  | .binary span operator left right => do
      let leftValue ← computeIn left
      let rightValue ← computeIn right
      Computation.binary operator leftValue rightValue span
  | .call span intrinsic arguments => do
      if arguments.length != intrinsic.arity then
        (ExpressionProblem.argumentCount intrinsic arguments.length).report span
        return .invalid span
      match ← computeAllIn arguments with
      | some values => Computation.call intrinsic values span
      | none => return .invalid span
  | .error span => return .invalid span

/-- What a list of expressions comes to; nothing behind the first invalid one is looked at. -/
def computeAllIn : List Expr → m (Option (List Computation))
  | [] => return some []
  | first :: rest => do
      let value ← computeIn first
      if !value.isValid then return none
      return (← computeAllIn rest).map (value :: ·)

end

end Steps

/-- What an expression comes to. -/
def compute (expr : Expr) : Reporting Computation := expr.computeIn

def computeAll (exprs : List Expr) : Reporting (Option (List Computation)) := computeAllIn exprs

/-- The value of an expression that has to be a constant. -/
def evaluate (expr : Expr) : Reporting (Option Value) := do
  let computation ← compute expr
  match computation.outcome with
  | .constant value => return some ⟨value, computation.kind⟩
  | .invalid => return none
  | .terms _ =>
      ExpressionProblem.notConstant.report expr.span
      return none

end Expr

end NovelAsm
